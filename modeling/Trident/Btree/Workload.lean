import Mathlib.Algebra.Group.Nat.Even
import Trident.Btree.Invariants

/-! # The workload

The build loop inserts the keys from both ends, each with the address of an element of one of the two
arrays, and the timed loop looks up two keys for every random number.
-/

namespace Trident.Btree

open Loops

section Program

def workloadOrder : TreeOrder := ⟨16, by decide, by decide⟩

/-- `(uint64_t)&elms[j]` for an array of `count` elements of 16 bytes; `none` is an index outside it. -/
def element (elms : UInt64) (count j : Nat) : Option UInt64 :=
  if j < count then some (elms + UInt64.ofNat (16 * j)) else none

/-- One turn of the build loop. -/
def buildTurn (elms elms2 : UInt64) (nElements i : Nat) (s : Heap × Option NodeId) :
    Option (Heap × Option NodeId) := do
  let value ← element elms (nElements / 2) (i / 2)
  let (h, root) ← insert workloadOrder s.1 s.2 (UInt64.ofNat i) value
  let value ← element elms2 (nElements / 2) (i / 2)
  insert workloadOrder h root (UInt64.ofNat nElements - UInt64.ofNat i - 1) value

/-- `for (size_t i = 0; i < NELEMENTS; i += 2)` -/
def build (elms elms2 : UInt64) (nElements : Nat) : Option (Heap × Option NodeId) :=
  forUp (fun j => buildTurn elms elms2 nElements (2 * j)) 0 ((nElements + 1) / 2) (emptyHeap, none)

/-- `r->value` where `find` returns a record `r`. -/
def foundValue (h : Heap) (root : Option NodeId) (key : UInt64) : Option (Option UInt64) := do
  match ← find h root key with
  | (_, none) => some none
  | (_, some r) =>
    match h.recs r with
    | .value v => some (some v)
    | .next _ => none

/-- `if (r) { ... if (e) { sum += e->payload; } }` -/
def addPayload (payload : UInt64 → UInt64) (sum : UInt64) : Option UInt64 → UInt64
  | some e => if e ≠ 0 then sum + payload e else sum
  | none => sum

/-- One turn of the lookup loop: what both calls of `find` gave, and the new `sum`. -/
def lookupTurn (h : Heap) (root : Option NodeId) (nElements : UInt64) (payload : UInt64 → UInt64)
    (rdn sum : UInt64) : Option (Option UInt64 × Option UInt64 × UInt64) := do
  let r ← foundValue h root (rdn % nElements)
  let sum := addPayload payload sum r
  let r' ← foundValue h root (((rdn + 1) <<< 2) % nElements)
  some (r, r', addPayload payload sum r')

end Program

section Keys

variable {nElements : Nat}

def keyValue (elms elms2 : UInt64) (nElements k : Nat) : Option UInt64 :=
  if k % 2 = 0 then element elms (nElements / 2) (k / 2)
  else element elms2 (nElements / 2) ((nElements - 1 - k) / 2)

/-- `key` is inserted before turn `j` of the build loop. -/
def Inserted (nElements j k : Nat) : Prop :=
  k < nElements ∧ if k % 2 = 0 then k < 2 * j else nElements - 1 - k < 2 * j

instance (nElements j k : Nat) : Decidable (Inserted nElements j k) := inferInstanceAs (Decidable (_ ∧ _))

/-- The map in the tree before turn `j`. -/
def partialContents (elms elms2 : UInt64) (nElements j : Nat) : Contents := fun key =>
  if Inserted nElements j key.toNat then keyValue elms elms2 nElements key.toNat else none

theorem toNat_first {j : Nat} (hj : 2 * j < nElements) (hFits : nElements < 2 ^ 64) :
    (UInt64.ofNat (2 * j)).toNat = 2 * j := UInt64.toNat_ofNat_of_lt' (hj.trans hFits)

theorem toNat_last {j : Nat} (hj : 2 * j < nElements) (hFits : nElements < 2 ^ 64) :
    (UInt64.ofNat nElements - UInt64.ofNat (2 * j) - 1).toNat = nElements - 1 - 2 * j := by
  have hFirst := toNat_first hj hFits
  have hAll : (UInt64.ofNat nElements).toNat = nElements := UInt64.toNat_ofNat_of_lt' hFits
  have hDifference : (UInt64.ofNat nElements - UInt64.ofNat (2 * j)).toNat = nElements - 2 * j := by
    rw [UInt64.toNat_sub_of_le _ _ (UInt64.le_iff_toNat_le.mpr (by omega)), hAll, hFirst]
  have hOne : (1 : UInt64) ≤ UInt64.ofNat nElements - UInt64.ofNat (2 * j) := by
    rw [UInt64.le_iff_toNat_le, hDifference, UInt64.toNat_one]
    omega
  rw [UInt64.toNat_sub_of_le _ _ hOne, hDifference, UInt64.toNat_one]
  omega

/-- Between the two keys of a turn no key changes. -/
theorem inserted_succ {j k : Nat} (hEven : Even nElements) (hFirst : k ≠ 2 * j)
    (hLast : k ≠ nElements - 1 - 2 * j) : Inserted nElements (j + 1) k ↔ Inserted nElements j k := by
  obtain ⟨half, rfl⟩ := hEven
  simp only [Inserted]
  split
  · omega
  · omega

theorem partialContents_succ {elms elms2 v w : UInt64} {j : Nat} (hEven : Even nElements)
    (hj : 2 * j < nElements) (hFits : nElements < 2 ^ 64) (hv : element elms (nElements / 2) j = some v)
    (hw : element elms2 (nElements / 2) j = some w) :
    Op.update (.insert (UInt64.ofNat nElements - UInt64.ofNat (2 * j) - 1) w)
        (Op.update (.insert (UInt64.ofNat (2 * j)) v) (partialContents elms elms2 nElements j)) =
      partialContents elms elms2 nElements (j + 1) := by
  have hFirst := toNat_first hj hFits
  have hLast := toNat_last hj hFits
  obtain ⟨half, rfl⟩ := hEven
  funext key
  obtain rfl | hKeyLast := eq_or_ne key (UInt64.ofNat (half + half) - UInt64.ofNat (2 * j) - 1)
  · have hIn : Inserted (half + half) (j + 1) (half + half - 1 - 2 * j) := by
      simp only [Inserted]
      split <;> omega
    have hOdd : (half + half - 1 - 2 * j) % 2 ≠ 0 := by omega
    have hIndex : (half + half - 1 - (half + half - 1 - 2 * j)) / 2 = j := by omega
    rw [Op.update, Function.update_self, partialContents, hLast, if_pos hIn, keyValue, if_neg hOdd, hIndex,
      hw]
  · rw [Op.update, Function.update_of_ne hKeyLast]
    obtain rfl | hKeyFirst := eq_or_ne key (UInt64.ofNat (2 * j))
    · have hIn : Inserted (half + half) (j + 1) (2 * j) := by
        simp only [Inserted]
        split <;> omega
      have hEven : 2 * j % 2 = 0 := Nat.mul_mod_right 2 j
      rw [Op.update, Function.update_self, partialContents, hFirst, if_pos hIn, keyValue, if_pos hEven,
        Nat.mul_div_cancel_left j (by decide), hv]
    · rw [Op.update, Function.update_of_ne hKeyFirst]
      have hStep : Inserted (half + half) (j + 1) key.toNat ↔ Inserted (half + half) j key.toNat := by
        apply inserted_succ ⟨half, rfl⟩
        · exact fun hEq => hKeyFirst (UInt64.toNat_inj.mp (hEq.trans hFirst.symm))
        · exact fun hEq => hKeyLast (UInt64.toNat_inj.mp (hEq.trans hLast.symm))
      simp only [partialContents, hStep]

end Keys

section Trees

variable {o : TreeOrder} {h : Heap} {root : Option NodeId} {es : List (UInt64 × RecId)} {m : Contents}

def KeyOf (h : Heap) (x : NodeId) (i : Nat) (key : UInt64) : Prop :=
  (h.nodes x).isLeaf = true ∧ (h.nodes x).keysInUse[i]? = some key

theorem key_places (o : TreeOrder) (h : Heap) : Places o h Prod.fst (KeyOf h) := by
  constructor
  · exact fun _ _ _ hKey => hKey.1
  · intro x es link hNode i key
    rw [KeyOf, hNode.keysInUse, hNode.isLeaf]
    exact and_iff_right rfl

theorem Holds.entry (hHolds : Holds o h root es m) {key v : UInt64} (hKey : m key = some v) :
    ∃ r, (key, r) ∈ es := by
  by_contra hAbsent
  rw [not_exists] at hAbsent
  rw [hHolds.absent key hAbsent] at hKey
  cases hKey

theorem Holds.key_once (hHolds : Holds o h root es m) {key v : UInt64} (hKey : m key = some v) :
    ∃! p : NodeId × Nat, InTree h root p.1 ∧ KeyOf h p.1 p.2 key := by
  obtain ⟨r, hIn⟩ := hHolds.entry hKey
  cases root with
  | none =>
    obtain ⟨_, rfl⟩ := hHolds.tree
    cases hIn
  | some root =>
    have hOnce := hHolds.tree.nodup
    obtain ⟨d, above, row, items, hShape, rfl⟩ := hHolds.tree
    have hPlaces := key_places o h
    obtain ⟨x, i, hx, hPlace⟩ := (hShape.place_iff hPlaces key).mpr (List.mem_map_of_mem hIn)
    refine ⟨(x, i), ⟨hx, hPlace⟩, fun p hp => ?_⟩
    obtain ⟨hNode, hIndex⟩ := hShape.place_unique hPlaces hOnce hp.1 hx hp.2 hPlace
    exact Prod.ext hNode hIndex

theorem Holds.foundValue (hHolds : Holds o h root es m) {key v : UInt64} (hKey : m key = some v) :
    foundValue h root key = some (some v) := by
  obtain ⟨leaf, r, hFind, hIn⟩ | ⟨_, hAbsent⟩ := hHolds.tree.find_cases key
  · obtain ⟨w, hStored, hMap⟩ := hHolds.stored (key, r) hIn
    obtain rfl : w = v := Option.some.inj (hMap.symm.trans hKey)
    rw [Btree.foundValue, hFind]
    simp only [Option.bind_eq_bind, Option.bind_some, hStored]
  · obtain ⟨r, hIn⟩ := hHolds.entry hKey
    exact absurd hIn (hAbsent r)

end Trees

section Building

variable {nElements : Nat}

theorem buildTurn_holds {elms elms2 : UInt64} {h : Heap} {root : Option NodeId}
    {es : List (UInt64 × RecId)} {j : Nat} (hEven : Even nElements) (hj : 2 * j < nElements)
    (hFits : nElements < 2 ^ 64) (hHolds : Holds workloadOrder h root es (partialContents elms elms2 nElements j)) :
    ∃ s es', buildTurn elms elms2 nElements (2 * j) (h, root) = some s ∧
      Holds workloadOrder s.1 s.2 es' (partialContents elms elms2 nElements (j + 1)) := by
  have hIndex : j < nElements / 2 := by
    obtain ⟨half, rfl⟩ := hEven
    omega
  have hElement : ∀ base, element base (nElements / 2) j = some (base + UInt64.ofNat (16 * j)) :=
    fun base => if_pos hIndex
  obtain ⟨h₁, root₁, es₁, hFirst, hHolds₁⟩ := holds_insert hHolds (UInt64.ofNat (2 * j)) (elms + UInt64.ofNat (16 * j))
  obtain ⟨h₂, root₂, es₂, hLast, hHolds₂⟩ := holds_insert hHolds₁
    (UInt64.ofNat nElements - UInt64.ofNat (2 * j) - 1) (elms2 + UInt64.ofNat (16 * j))
  rw [partialContents_succ hEven hj hFits (hElement elms) (hElement elms2)] at hHolds₂
  refine ⟨(h₂, root₂), es₂, ?_, hHolds₂⟩
  rw [buildTurn, Nat.mul_div_cancel_left j (by decide), hElement, hElement]
  simp only [Option.bind_eq_bind, Option.bind_some, hFirst, hLast]

theorem build_holds (elms elms2 : UInt64) (hEven : Even nElements) (hFits : nElements < 2 ^ 64) :
    ∃ h root es, build elms elms2 nElements = some (h, root) ∧
      Holds workloadOrder h root es (partialContents elms elms2 nElements (nElements / 2)) := by
  have hLoop : ∀ j, 2 * j ≤ nElements → ∃ s es,
      forUp (fun j => buildTurn elms elms2 nElements (2 * j)) 0 j (emptyHeap, none) = some s ∧
        Holds workloadOrder s.1 s.2 es (partialContents elms elms2 nElements j) := by
    intro j hj
    induction j with
    | zero =>
      have hStart : partialContents elms elms2 nElements 0 = fun _ => none := by
        funext key
        have hNone : ¬ Inserted nElements 0 key.toNat := by
          simp only [Inserted]
          split <;> omega
        rw [partialContents, if_neg hNone]
      rw [hStart]
      exact ⟨_, [], rfl, holds_start workloadOrder⟩
    | succ j ih =>
      obtain ⟨⟨h, root⟩, es, hRun, hHolds⟩ := ih (by omega)
      obtain ⟨s, es', hTurn, hHolds'⟩ := buildTurn_holds hEven (by omega) hFits hHolds
      refine ⟨s, es', ?_, hHolds'⟩
      rw [forUp_add, hRun]
      simp only [Option.bind_some, forUp, Nat.zero_add, hTurn]
  obtain ⟨⟨h, root⟩, es, hRun, hHolds⟩ := hLoop (nElements / 2) (by omega)
  have hTurns : (nElements + 1) / 2 = nElements / 2 := by
    obtain ⟨half, rfl⟩ := hEven
    omega
  refine ⟨h, root, es, ?_, hHolds⟩
  rw [build, hTurns, hRun]

theorem fullContents (elms elms2 : UInt64) {key : UInt64} (hEven : Even nElements) (hKey : key.toNat < nElements) :
    ∃ v, keyValue elms elms2 nElements key.toNat = some v ∧
      partialContents elms elms2 nElements (nElements / 2) key = some v := by
  obtain ⟨half, rfl⟩ := hEven
  have hIn : Inserted (half + half) ((half + half) / 2) key.toNat := by
    simp only [Inserted]
    split <;> omega
  have hValue : ∃ v, keyValue elms elms2 (half + half) key.toNat = some v := by
    rw [keyValue]
    split
    · exact ⟨_, if_pos (by omega)⟩
    · exact ⟨_, if_pos (by omega)⟩
  obtain ⟨v, hv⟩ := hValue
  refine ⟨v, hv, ?_⟩
  rw [partialContents, if_pos hIn, hv]

/-- The whole build loop: every key once, with the address of its own element, so that every look-up of
the timed loop succeeds. -/
theorem build_complete (elms elms2 : UInt64) (hEven : Even nElements) (hTwo : 2 ≤ nElements)
    (hFits : nElements < 2 ^ 64) :
    ∃ h root, build elms elms2 nElements = some (h, root) ∧
      (∀ key : UInt64, key.toNat < nElements →
        ∃! p : NodeId × Nat, InTree h root p.1 ∧ KeyOf h p.1 p.2 key) ∧
      (∀ key : UInt64, key.toNat < nElements →
        ∃ v, keyValue elms elms2 nElements key.toNat = some v ∧ foundValue h root key = some (some v)) ∧
      ∀ payload rdn sum, ∃ v v' sum',
        lookupTurn h root (UInt64.ofNat nElements) payload rdn sum = some (some v, some v', sum') := by
  obtain ⟨h, root, es, hBuild, hHolds⟩ := build_holds elms elms2 hEven hFits
  have hValues : ∀ key : UInt64, key.toNat < nElements →
      ∃ v, keyValue elms elms2 nElements key.toNat = some v ∧ foundValue h root key = some (some v) := by
    intro key hKey
    obtain ⟨v, hValue, hMap⟩ := fullContents elms elms2 hEven hKey
    exact ⟨v, hValue, hHolds.foundValue hMap⟩
  refine ⟨h, root, hBuild, fun key hKey => ?_, hValues, fun payload rdn sum => ?_⟩
  · obtain ⟨v, _, hMap⟩ := fullContents elms elms2 hEven hKey
    exact hHolds.key_once hMap
  · have hReduced : ∀ key : UInt64, (key % UInt64.ofNat nElements).toNat < nElements := by
      intro key
      rw [UInt64.toNat_mod, UInt64.toNat_ofNat_of_lt' hFits]
      exact Nat.mod_lt _ (by omega)
    obtain ⟨v, _, hFirst⟩ := hValues _ (hReduced rdn)
    obtain ⟨v', _, hSecond⟩ := hValues _ (hReduced ((rdn + 1) <<< 2))
    rw [lookupTurn, hFirst]
    simp only [Option.bind_eq_bind, Option.bind_some, hSecond]
    exact ⟨v, v', _, rfl⟩

theorem build_complete_six : ∃ h root, build 0x200000 0x400000 6 = some (h, root) ∧
    (∀ key : UInt64, key.toNat < 6 → ∃! p : NodeId × Nat, InTree h root p.1 ∧ KeyOf h p.1 p.2 key) ∧
    (∀ key : UInt64, key.toNat < 6 →
      ∃ v, keyValue 0x200000 0x400000 6 key.toNat = some v ∧ foundValue h root key = some (some v)) ∧
    ∀ payload rdn sum, ∃ v v' sum',
      lookupTurn h root (UInt64.ofNat 6) payload rdn sum = some (some v, some v', sum') :=
  build_complete 0x200000 0x400000 (by decide) (by decide) (by decide)

end Building

end Trident.Btree
