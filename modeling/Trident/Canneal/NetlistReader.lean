import Mathlib.Data.List.Perm.Subperm
import Trident.Canneal.NetlistFile
import Trident.Canneal.RoutingCost

/-! # The constructor of the netlist

It reads a file element by element until the end of the file is seen. `AtomicPtr.h`
defines `NDEBUG`, so no assertion of the constructor is checked.
-/

namespace Trident.Canneal

open Streams

/-- `netlist_elem`; the elements of the chip are known by their index. -/
structure Elem where
  itemName : Name
  fanin : List Nat
  fanout : List Nat
  presentLoc : Option Location

structure Chip where
  chipSize : Nat
  elements : Nat → Elem
  elemNames : Name → Option Nat
  unusedElem : Nat

def uintMax : Nat := 2 ^ 32 - 1

def intMax : Nat := 2 ^ 31 - 1

namespace Chip

def update (c : Chip) (i : Nat) (f : Elem → Elem) : Chip :=
  { c with elements := Function.update c.elements i (f (c.elements i)) }

/-- `none` is an index that `at` refuses. -/
def createElemIfNecessary (c : Chip) (name : Name) : Option (Chip × Nat) :=
  match c.elemNames name with
  | some i => some (c, i)
  | none =>
    if c.unusedElem < c.chipSize then
      some ({ c with
        elemNames := Function.update c.elemNames name (some c.unusedElem)
        unusedElem := c.unusedElem + 1 }, c.unusedElem)
    else none

/-- `_elements.at(i_elem).present_loc.Set(loc); i_elem++;` -/
def setLocation (s : Chip × Nat) (loc : Location) : Option (Chip × Nat) :=
  if s.2 < s.1.chipSize then some (s.1.update s.2 fun e => { e with presentLoc := some loc }, s.2 + 1)
  else none

/-- `while (fin >> fanin_name)`. Each turn takes a character at least. -/
def readFanin (present : Nat) : Nat → Chip × Stream → Option (Chip × Stream)
  | 0, _ => none
  | fuel + 1, (c, fin) =>
    match readWord fin with
    | (none, fin) => some (c, fin)
    | (some faninName, fin) =>
      if faninName = ['E', 'N', 'D'] then some (c, fin)
      else do
        let (c, faninElem) ← c.createElemIfNecessary faninName
        let c := c.update present fun e => { e with fanin := e.fanin ++ [faninElem] }
        let c := c.update faninElem fun e => { e with fanout := e.fanout ++ [present] }
        readFanin present fuel (c, fin)

end Chip

def locations (maxX maxY : Nat) : List Location :=
  (List.range maxX).flatMap fun x => (List.range maxY).map fun y => ⟨x, y⟩

def emptyChip (chipSize : Nat) : Chip where
  chipSize := chipSize
  elements _ := { itemName := [], fanin := [], fanout := [], presentLoc := none }
  elemNames _ := none
  unusedElem := 0

section Constructor

-- `fin >> _max_x` and `fin >> type`: signs and the base differ from one text to another, and
-- most of what the constructor does is the same however it extracts its numbers.
variable {T : Type*} (readUnsigned : Stream → Option Nat × Stream) (readType : Stream → T × Stream)

/-- One turn of `while (!fin.eof())`. -/
def Chip.readElementBy (c : Chip) (fin : Stream) : Option (Chip × Stream) := do
  let (word, fin) := readWord fin
  let name := word.getD []
  let (c, present) ← c.createElemIfNecessary name
  let c := c.update present fun e => { e with itemName := name }
  let (_, fin) := readType fin
  readFanin present (fin.rest.length + 1) (c, fin)

def Chip.readElementsBy : Nat → Chip × Stream → Option Chip
  | 0, _ => none
  | fuel + 1, (c, fin) =>
    if fin.eof then some c
    else do
      let s ← readElementBy readType c fin
      readElementsBy fuel s

/-- `fin >> _num_elements >> _max_x >> _max_y`; only the assertion reads the first. -/
def readHeaderBy (file : List Char) : (Option Nat × Option Nat) × Stream :=
  let (_, fin) := readUnsigned (.opened file)
  let (x, fin) := readUnsigned fin
  let (y, fin) := readUnsigned fin
  ((x, y), fin)

/-- `netlist::netlist` on a file that opens. Before it `_max_x` and `_max_y` hold anything;
`none` is an exception, or a loop that goes on for more turns than `fuel`. -/
def netlistBy (maxX maxY : Nat) (fuel : Nat) (file : List Char) : Option Chip := do
  let ((x, y), fin) := readHeaderBy readUnsigned file
  let maxX := x.getD maxX
  let maxY := y.getD maxY
  let chipSize := maxX * maxY % 2 ^ 32
  let (c, _) ← (locations maxX maxY).foldlM Chip.setLocation (emptyChip chipSize, 0)
  Chip.readElementsBy readType fuel (c, fin)

end Constructor

/-! The files of the generator hold plain decimal numbers. -/

def Chip.readElement : Chip → Stream → Option (Chip × Stream) := readElementBy (readNumber intMax)

def Chip.readElements : Nat → Chip × Stream → Option Chip := readElementsBy (readNumber intMax)

def readHeader : List Char → (Option Nat × Option Nat) × Stream := readHeaderBy (readNumber uintMax)

def netlist : Nat → Nat → Nat → List Char → Option Chip :=
  netlistBy (readNumber uintMax) (readNumber intMax)

section Elements

variable {c : Chip} {known order : List Name} {name : Name}

@[simp] theorem update_self (c : Chip) (i : Nat) (f : Elem → Elem) :
    (c.update i f).elements i = f (c.elements i) := by
  simp [Chip.update]

theorem update_of_ne (c : Chip) {i j : Nat} (f : Elem → Elem) (h : j ≠ i) :
    (c.update i f).elements j = c.elements j := by
  simp [Chip.update, h]

/-- The elements in use are those of the names in `order`, which are all known. -/
structure Allocated (known : List Name) (c : Chip) (order : List Name) : Prop where
  nodup : order.Nodup
  names : ∀ name i, c.elemNames name = some i ↔ order[i]? = some name
  unused : c.unusedElem = order.length
  subset : order ⊆ known
  room : known.length ≤ c.chipSize

theorem Allocated.update (h : Allocated known c order) (i : Nat) (f : Elem → Elem) :
    Allocated known (c.update i f) order := ⟨h.nodup, h.names, h.unused, h.subset, h.room⟩

theorem getElem?_mono {order order' : List Name} (h : order <+: order') {i : Nat}
    (hi : order[i]? = some name) : order'[i]? = some name := by
  obtain ⟨l, rfl⟩ := h
  obtain ⟨hLt, _⟩ := List.getElem?_eq_some_iff.mp hi
  rw [List.getElem?_append_left hLt, hi]

theorem getElem?_append_singleton {n : Name} {i : Nat} :
    (order ++ [name])[i]? = some n ↔ order[i]? = some n ∨ i = order.length ∧ n = name := by
  rcases Nat.lt_trichotomy i order.length with hLt | rfl | hGt
  · simp [List.getElem?_append_left hLt, hLt.ne]
  · simp [eq_comm]
  · have hLength : (order ++ [name]).length ≤ i := by
      rw [List.length_append, List.length_singleton]
      omega
    simp [List.getElem?_eq_none hLength, List.getElem?_eq_none hGt.le, hGt.ne']

theorem createElemIfNecessary_spec (h : Allocated known c order) (hKnown : name ∈ known) :
    ∃ c' i order', c.createElemIfNecessary name = some (c', i) ∧ Allocated known c' order' ∧
      order <+: order' ∧ order'[i]? = some name ∧ c'.elements = c.elements := by
  cases hName : c.elemNames name with
  | some i =>
    have hIndex := (h.names name i).mp hName
    refine ⟨c, i, order, ?_, h, List.prefix_rfl, hIndex, rfl⟩
    simp only [Chip.createElemIfNecessary, hName]
  | none =>
    have hNew : name ∉ order := by
      intro hIn
      obtain ⟨i, hi⟩ := List.mem_iff_getElem?.mp hIn
      rw [(h.names name i).mpr hi] at hName
      cases hName
    have hNodup : (name :: order).Nodup := List.nodup_cons.mpr ⟨hNew, h.nodup⟩
    have hSubset : name :: order ⊆ known := List.cons_subset.mpr ⟨hKnown, h.subset⟩
    have hLength := (hNodup.subperm hSubset).length_le
    have hRoom := h.room
    have hUnused := h.unused
    rw [List.length_cons] at hLength
    refine ⟨{ c with
        elemNames := Function.update c.elemNames name (some c.unusedElem)
        unusedElem := c.unusedElem + 1 }, c.unusedElem, order ++ [name], ?_, ⟨?_, fun n i => ?_, ?_, ?_, hRoom⟩,
      List.prefix_append _ _, ?_, rfl⟩
    · simp only [Chip.createElemIfNecessary, hName]
      rw [if_pos (by omega)]
    · exact List.nodup_append_comm.mp hNodup
    · rw [getElem?_append_singleton, ← h.names, ← hUnused]
      obtain rfl | hNe := eq_or_ne n name
      · simp [hName, eq_comm]
      · simp [hNe]
    · simp [hUnused]
    · exact List.append_subset.mpr ⟨h.subset, by simpa using hKnown⟩
    · rw [hUnused, List.getElem?_append_right le_rfl, Nat.sub_self]
      rfl

/-- Every net is in the lists of both its ends, and only elements in use have any. -/
structure Wired (c : Chip) (order : List Name) : Prop where
  converse : ∀ i j, (c.elements i).fanin.count j = (c.elements j).fanout.count i
  nets : ∀ i, ∀ j ∈ (c.elements i).fanin, i < order.length ∧ j < order.length

theorem Wired.mono {c' : Chip} {order' : List Name} (h : Wired c order)
    (hElements : c'.elements = c.elements) (hOrder : order <+: order') : Wired c' order' := by
  have hLength := hOrder.length_le
  constructor
  · rw [hElements]
    exact h.converse
  · rw [hElements]
    intro i j hj
    obtain ⟨hi, hj⟩ := h.nets i j hj
    exact ⟨by omega, by omega⟩

/-- The two `push_back` of one net. -/
def addNet (c : Chip) (i j : Nat) : Chip :=
  (c.update i fun e => { e with fanin := e.fanin ++ [j] }).update j
    fun e => { e with fanout := e.fanout ++ [i] }

theorem addNet_fanin (c : Chip) (i j : Nat) : ((addNet c i j).elements i).fanin =
    (c.elements i).fanin ++ [j] := by
  obtain rfl | hNe := eq_or_ne i j
  · simp [addNet]
  · simp [addNet, update_of_ne _ _ hNe]

theorem addNet_fanin_of_ne (c : Chip) {i k : Nat} (j : Nat) (hk : k ≠ i) :
    ((addNet c i j).elements k).fanin = (c.elements k).fanin := by
  obtain rfl | hNe := eq_or_ne k j
  · simp [addNet, update_of_ne _ _ hk]
  · simp [addNet, update_of_ne _ _ hNe, update_of_ne _ _ hk]

theorem addNet_fanout (c : Chip) (i j : Nat) : ((addNet c i j).elements j).fanout =
    (c.elements j).fanout ++ [i] := by
  obtain rfl | hNe := eq_or_ne j i
  · simp [addNet]
  · simp [addNet, update_of_ne _ _ hNe]

theorem addNet_fanout_of_ne (c : Chip) (i : Nat) {j k : Nat} (hk : k ≠ j) :
    ((addNet c i j).elements k).fanout = (c.elements k).fanout := by
  obtain rfl | hNe := eq_or_ne k i
  · simp [addNet, update_of_ne _ _ hk]
  · simp [addNet, update_of_ne _ _ hNe, update_of_ne _ _ hk]

theorem Wired.addNet (h : Wired c order) {i j : Nat} (hi : i < order.length) (hj : j < order.length) :
    Wired (addNet c i j) order := by
  constructor
  · intro k l
    have hOld := h.converse k l
    obtain rfl | hk := eq_or_ne k i
    · rw [addNet_fanin, List.count_append, hOld]
      obtain rfl | hl := eq_or_ne l j
      · rw [addNet_fanout, List.count_append, List.count_singleton_self, List.count_singleton_self]
      · rw [addNet_fanout_of_ne c k hl, List.count_singleton]
        simp [hl.symm]
    · rw [addNet_fanin_of_ne c j hk, hOld]
      obtain rfl | hl := eq_or_ne l j
      · rw [addNet_fanout, List.count_append, List.count_singleton]
        simp [hk.symm]
      · rw [addNet_fanout_of_ne c i hl]
  · intro k l hl
    obtain rfl | hk := eq_or_ne k i
    · rw [addNet_fanin, List.mem_append, List.mem_singleton] at hl
      cases hl with
      | inl hl => exact h.nets k l hl
      | inr hl => exact ⟨hi, hl ▸ hj⟩
    · rw [addNet_fanin_of_ne c j hk] at hl
      exact h.nets k l hl

end Elements

section Lines

variable {c : Chip} {known order : List Name}

/-- What stands between two spaces of a line. -/
def Word (name : Name) : Prop := name ≠ [] ∧ ∀ c ∈ name, isSpace c = false

theorem Word.read {name : Name} (h : Word name) {space stop : Char} (hSpace : isSpace space = true)
    (hStop : isSpace stop = true) (rest : List Char) :
    readWord (.opened (space :: (name ++ stop :: rest))) = (some name, .opened (stop :: rest)) := by
  have hSpaces : ∀ d ∈ [space], isSpace d = true := by simpa using hSpace
  exact readWord_word hSpaces h.1 h.2 hStop

/-- The chip after some of the lines: `order` has the names seen so far. -/
structure Built (known : List Name) (c : Chip) (order : List Name) : Prop where
  allocated : Allocated known c order
  wired : Wired c order

def Refers (order : List Name) (ins : List Name) (js : List Nat) : Prop :=
  List.Forall₂ (fun name j => order[j]? = some name) ins js

theorem Refers.mono {order' : List Name} {ins : List Name} {js : List Nat} (h : Refers order ins js)
    (hOrder : order <+: order') : Refers order' ins js :=
  List.Forall₂.imp (fun _ _ hj => getElem?_mono hOrder hj) h

theorem readFanin_spec {ins : List Name} {present fuel : Nat} (h : Built known c order)
    (hIns : ∀ n ∈ ins, n ∈ known ∧ Word n ∧ n ≠ ['E', 'N', 'D']) (hPresent : present < order.length)
    (hFuel : ins.length < fuel) (rest : List Char) :
    ∃ c' order' js,
      Chip.readFanin present fuel (c, .opened ('\t' :: (ins.flatMap (fun name => name ++ ['\t']) ++
        (['E', 'N', 'D'] ++ '\n' :: rest)))) = some (c', .opened ('\n' :: rest)) ∧
      Built known c' order' ∧ order <+: order' ∧ Refers order' ins js ∧
      (c'.elements present).fanin = (c.elements present).fanin ++ js ∧
      ∀ k, k ≠ present → (c'.elements k).fanin = (c.elements k).fanin := by
  induction ins generalizing c order fuel with
  | nil =>
    obtain ⟨fuel, rfl⟩ := Nat.exists_eq_add_one_of_ne_zero (Nat.ne_of_gt hFuel)
    have hEnd : Word ['E', 'N', 'D'] := by
      constructor
      · decide
      · simp [isSpace]
    refine ⟨c, order, [], ?_, h, List.prefix_rfl, .nil, by simp, fun k _ => rfl⟩
    rw [Chip.readFanin, List.flatMap_nil, List.nil_append, hEnd.read (by decide) (by decide)]
    simp only [if_true]
  | cons n ins ih =>
    obtain ⟨fuel, rfl⟩ := Nat.exists_eq_add_one_of_ne_zero (Nat.ne_of_gt (Nat.zero_lt_of_lt hFuel))
    rw [List.forall_mem_cons] at hIns
    obtain ⟨⟨hKnown, hWord, hNotEnd⟩, hRest⟩ := hIns
    obtain ⟨c₁, j, order₁, hCreate, hAlloc₁, hPrefix₁, hIndex, hElements₁⟩ :=
      createElemIfNecessary_spec h.allocated hKnown
    have hj : j < order₁.length := (List.getElem?_eq_some_iff.mp hIndex).1
    have hi : present < order₁.length := Nat.lt_of_lt_of_le hPresent hPrefix₁.length_le
    have hBuilt₁ : Built known (addNet c₁ present j) order₁ :=
      ⟨(hAlloc₁.update _ _).update _ _, (h.wired.mono hElements₁ hPrefix₁).addNet hi hj⟩
    obtain ⟨c', order', js, hCall, hBuilt', hPrefix', hRefers, hSelf, hOthers⟩ :=
      ih hBuilt₁ hRest hi (Nat.lt_of_succ_lt_succ hFuel)
    refine ⟨c', order', j :: js, ?_, hBuilt', hPrefix₁.trans hPrefix', ?_, ?_, fun k hk => ?_⟩
    · rw [Chip.readFanin, List.flatMap_cons, List.append_assoc, List.append_assoc, List.singleton_append,
        hWord.read (by decide) (by decide)]
      simp only [if_neg hNotEnd, hCreate, Option.bind_eq_bind, Option.bind_some]
      exact hCall
    · exact .cons (getElem?_mono hPrefix' hIndex) hRefers
    · rw [hSelf, addNet_fanin, hElements₁, List.append_assoc, List.singleton_append]
    · rw [hOthers k hk, addNet_fanin_of_ne _ _ hk, hElements₁]

theorem length_le_flatMap (ins : List Name) :
    ins.length ≤ (ins.flatMap fun name => name ++ ['\t']).length := by
  induction ins with
  | nil => exact le_rfl
  | cons n ins ih =>
    rw [List.flatMap_cons, List.length_append, List.length_append, List.length_singleton, List.length_cons]
    omega

/-- What the constructor takes a line for. -/
structure Readable (known : List Name) (l : Line) : Prop where
  name : l.name ∈ known ∧ Word l.name
  type : l.type ≤ intMax
  fanin : ∀ n ∈ l.fanin, n ∈ known ∧ Word n ∧ n ≠ ['E', 'N', 'D']

theorem startElement_spec {name : Name} (h : Built known c order) (hName : name ∈ known) :
    ∃ c₁ i order', c.createElemIfNecessary name = some (c₁, i) ∧
      Built known (c₁.update i fun e => { e with itemName := name }) order' ∧ order <+: order' ∧
      order'[i]? = some name ∧ ∀ k,
        ((c₁.update i fun e => { e with itemName := name }).elements k).fanin =
          (c.elements k).fanin := by
  obtain ⟨c₁, i, order', hCreate, hAlloc, hPrefix, hIndex, hElements⟩ :=
    createElemIfNecessary_spec h.allocated hName
  have hSame : ∀ k, ((c₁.update i fun e => { e with itemName := name }).elements k).fanin =
      (c.elements k).fanin ∧
      ((c₁.update i fun e => { e with itemName := name }).elements k).fanout =
        (c.elements k).fanout := by
    intro k
    rw [← hElements]
    obtain rfl | hk := eq_or_ne k i
    · rw [update_self]
      exact ⟨rfl, rfl⟩
    · rw [update_of_ne _ _ hk]
      exact ⟨rfl, rfl⟩
  refine ⟨c₁, i, order', hCreate, ⟨hAlloc.update _ _, fun j k => ?_, fun j k hk => ?_⟩, hPrefix, hIndex,
    fun k => (hSame k).1⟩
  · rw [(hSame j).1, (hSame k).2]
    exact h.wired.converse j k
  · have hLength := hPrefix.length_le
    rw [(hSame j).1] at hk
    obtain ⟨hj, hk⟩ := h.wired.nets j k hk
    exact ⟨by omega, by omega⟩

theorem tab_isSpace : ∀ d ∈ ['\t'], isSpace d = true := List.forall_mem_singleton.mpr rfl

theorem readNext_fits {limit n : Nat} {text : List Char} {c : Char} (hn : n ≤ limit)
    (hc : isSpace c = true) :
    readNumber limit (.opened ('\t' :: (decimal n ++ c :: text))) = (some n, .opened (c :: text)) := by
  have hRead : readNumber limit (.opened (['\t'] ++ (decimal n ++ c :: text))) = _ :=
    readNumber_fits hn tab_isSpace hc
  rwa [List.singleton_append] at hRead

theorem readNext_over {limit n : Nat} {text : List Char} {c : Char} (hn : limit < n)
    (hc : isSpace c = true) :
    readNumber limit (.opened ('\t' :: (decimal n ++ c :: text))) =
      (some limit, ⟨c :: text, false, true⟩) := by
  have hRead : readNumber limit (.opened (['\t'] ++ (decimal n ++ c :: text))) = _ :=
    readNumber_over hn tab_isSpace hc
  rwa [List.singleton_append] at hRead

theorem readElement_spec {l : Line} (h : Built known c order) (hLine : Readable known l)
    (rest : List Char) :
    ∃ c' order' i js,
      Chip.readElement c (.opened ('\n' :: (printLine l ++ rest))) = some (c', .opened ('\n' :: rest)) ∧
      Built known c' order' ∧ order <+: order' ∧ order'[i]? = some l.name ∧ Refers order' l.fanin js ∧
      (c'.elements i).fanin = (c.elements i).fanin ++ js ∧
      ∀ k, k ≠ i → (c'.elements k).fanin = (c.elements k).fanin := by
  obtain ⟨c₁, i, order₁, hCreate, hBuilt₁, hPrefix₁, hIndex, hFanin₁⟩ := startElement_spec h hLine.name.1
  generalize hIns : '\t' :: (l.fanin.flatMap (fun name => name ++ ['\t']) ++
    (['E', 'N', 'D'] ++ '\n' :: rest)) = ins
  have hFuel : l.fanin.length < ins.length + 1 := by
    have hLength := length_le_flatMap l.fanin
    rw [← hIns, List.length_cons, List.length_append]
    omega
  obtain ⟨c', order', js, hCall, hBuilt', hPrefix', hRefers, hSelf, hOthers⟩ :=
    readFanin_spec hBuilt₁ hLine.fanin (List.getElem?_eq_some_iff.mp hIndex).1 hFuel rest
  rw [hIns] at hCall
  have hText : '\n' :: (printLine l ++ rest) = '\n' :: (l.name ++ '\t' :: (decimal l.type ++ ins)) := by
    rw [printLine, ← hIns]
    simp
  have hType : readNumber intMax (.opened ('\t' :: (decimal l.type ++ ins))) =
      (some l.type, .opened ins) := by
    rw [← hIns]
    exact readNext_fits hLine.type (by decide)
  refine ⟨c', order', i, js, ?_, hBuilt', hPrefix₁.trans hPrefix', getElem?_mono hPrefix' hIndex,
    hRefers, ?_, fun k hk => ?_⟩
  · rw [Chip.readElement, Chip.readElementBy, hText, hLine.name.2.read (by decide) (by decide)]
    simp only [Option.getD_some, hCreate, Option.bind_eq_bind, Option.bind_some, hType]
    exact hCall
  · rw [hSelf, hFanin₁]
  · rw [hOthers k hk, hFanin₁]

/-- The turn that finds only the end of the file makes an element without a name. -/
theorem readElement_end (h : Built known c order) (hEmpty : [] ∈ known) :
    ∃ c' order', Chip.readElement c (.opened ['\n']) = some (c', ⟨[], true, true⟩) ∧
      Built known c' order' ∧ order <+: order' ∧ [] ∈ order' ∧
      ∀ k, (c'.elements k).fanin = (c.elements k).fanin := by
  obtain ⟨c₁, i, order', hCreate, hBuilt, hPrefix, hIndex, hFanin⟩ := startElement_spec h hEmpty
  refine ⟨_, order', ?_, hBuilt, hPrefix, List.mem_of_getElem? hIndex, hFanin⟩
  have hNone : readWord (.opened ['\n']) = (none, ⟨[], true, true⟩) := extract_end _ (List.forall_mem_singleton.mpr rfl)
  have hNumber : readNumber intMax ⟨[], true, true⟩ = (none, ⟨[], true, true⟩) := extract_failed _ rfl
  have hFanin : readWord ⟨[], true, true⟩ = (none, ⟨[], true, true⟩) := extract_failed _ rfl
  simp only [Chip.readElement, Chip.readElementBy, hNone, Option.getD_none, hCreate,
    Option.bind_eq_bind, Option.bind_some, hNumber, Chip.readFanin, hFanin]

/-- The fanin of the lines read so far; all other elements have none. -/
structure LinesRead (c : Chip) (order : List Name) (done : List Line) : Prop where
  fanin : ∀ l ∈ done, ∃ i, order[i]? = some l.name ∧ Refers order l.fanin (c.elements i).fanin
  fresh : ∀ i, (∀ l ∈ done, order[i]? ≠ some l.name) → (c.elements i).fanin = []

theorem readElement_linesRead {done : List Line} {l : Line} (h : Built known c order)
    (hDone : LinesRead c order done) (hLine : Readable known l) (hNew : ∀ l' ∈ done, l'.name ≠ l.name)
    (rest : List Char) :
    ∃ c' order',
      Chip.readElement c (.opened ('\n' :: (printLine l ++ rest))) = some (c', .opened ('\n' :: rest)) ∧
      Built known c' order' ∧ LinesRead c' order' (done ++ [l]) := by
  obtain ⟨c', order', i, js, hCall, hBuilt', hPrefix, hIndex, hRefers, hSelf, hOthers⟩ :=
    readElement_spec h hLine rest
  have hOld : ∀ k, ∀ l' ∈ done, order[k]? = some l'.name → k ≠ i := by
    rintro k l' hl' hk rfl
    have hk' := getElem?_mono hPrefix hk
    exact hNew l' hl' (Option.some.inj (hk'.symm.trans hIndex))
  refine ⟨c', order', hCall, hBuilt', fun l' hl' => ?_, fun k hk => ?_⟩
  · cases List.mem_append.mp hl' with
    | inl hl' =>
      obtain ⟨k, hk, hFanin⟩ := hDone.fanin l' hl'
      refine ⟨k, getElem?_mono hPrefix hk, ?_⟩
      rw [hOthers k (hOld k l' hl' hk)]
      exact hFanin.mono hPrefix
    | inr hl' =>
      obtain rfl := List.mem_singleton.mp hl'
      have hFresh : (c.elements i).fanin = [] := hDone.fresh i fun l'' hl'' hi =>
        hOld i l'' hl'' hi rfl
      refine ⟨i, hIndex, ?_⟩
      rwa [hSelf, hFresh, List.nil_append]
  · have hki : k ≠ i := by
      rintro rfl
      exact hk l (by simp) hIndex
    rw [hOthers k hki]
    exact hDone.fresh k fun l' hl' hOrder =>
      hk l' (List.mem_append_left _ hl') (getElem?_mono hPrefix hOrder)

theorem readElements_opened (c : Chip) (fuel : Nat) (text : List Char) :
    Chip.readElements (fuel + 1) (c, .opened text) =
      (c.readElement (.opened text)).bind (Chip.readElements fuel) := rfl

theorem readElements_lines {lines done : List Line} (h : Built known c order)
    (hDone : LinesRead c order done) (hLines : ∀ l ∈ lines, Readable known l)
    (hNames : ((done ++ lines).map Line.name).Nodup) (fuel : Nat) :
    ∃ c' order',
      Chip.readElements (lines.length + fuel) (c, .opened ('\n' :: lines.flatMap printLine)) =
        Chip.readElements fuel (c', .opened ['\n']) ∧
      Built known c' order' ∧ LinesRead c' order' (done ++ lines) := by
  induction lines generalizing c order done with
  | nil => exact ⟨c, order, by simp, h, by simpa using hDone⟩
  | cons l lines ih =>
    rw [List.forall_mem_cons] at hLines
    have hNew : ∀ l' ∈ done, l'.name ≠ l.name := by
      intro l' hl' hEq
      rw [List.map_append, List.map_cons, List.nodup_middle, List.nodup_cons, ← hEq] at hNames
      exact hNames.1 (List.mem_append_left _ (List.mem_map_of_mem hl'))
    obtain ⟨c₁, order₁, hTurn, hBuilt₁, hDone₁⟩ :=
      readElement_linesRead h hDone hLines.1 hNew (lines.flatMap printLine)
    obtain ⟨c', order', hRest, hBuilt', hDone'⟩ := ih hBuilt₁ hDone₁ hLines.2 (by simpa using hNames)
    refine ⟨c', order', ?_, hBuilt', by simpa using hDone'⟩
    rw [List.length_cons, Nat.add_right_comm, List.flatMap_cons, readElements_opened, hTurn]
    exact hRest

theorem readElements_end {done : List Line} (h : Built known c order) (hEmpty : [] ∈ known)
    (hDone : LinesRead c order done) :
    ∃ c' order', Chip.readElements 2 (c, .opened ['\n']) = some c' ∧ Built known c' order' ∧
      LinesRead c' order' done ∧ [] ∈ order' := by
  obtain ⟨c', order', hTurn, hBuilt', hPrefix, hIn, hFanin⟩ := readElement_end h hEmpty
  refine ⟨c', order', ?_, hBuilt', ⟨fun l hl => ?_, fun k hk => ?_⟩, hIn⟩
  · rw [readElements_opened, hTurn]
    rfl
  · obtain ⟨i, hi, hRefers⟩ := hDone.fanin l hl
    refine ⟨i, getElem?_mono hPrefix hi, ?_⟩
    rw [hFanin]
    exact hRefers.mono hPrefix
  · rw [hFanin]
    exact hDone.fresh k fun l hl hOrder => hk l hl (getElem?_mono hPrefix hOrder)

end Lines

section Locations

/-- A chip of `size` elements none of which is in use. -/
structure Unused (size : Nat) (c : Chip) : Prop where
  chipSize : c.chipSize = size
  elemNames : ∀ name, c.elemNames name = none
  unusedElem : c.unusedElem = 0
  elements : ∀ i, (c.elements i).fanin = [] ∧ (c.elements i).fanout = []

theorem setLocations_spec {size : Nat} (ls : List Location) {c : Chip} (h : Unused size c) {i : Nat}
    (hRoom : i + ls.length ≤ size) :
    ∃ c', ls.foldlM Chip.setLocation (c, i) = some (c', i + ls.length) ∧ Unused size c' := by
  induction ls generalizing c i with
  | nil => exact ⟨c, rfl, h⟩
  | cons loc ls ih =>
    rw [List.length_cons] at hRoom
    have hSet : Unused size (c.update i fun e => { e with presentLoc := some loc }) := by
      refine ⟨h.chipSize, h.elemNames, h.unusedElem, fun k => ?_⟩
      obtain rfl | hk := eq_or_ne k i
      · rw [update_self]
        exact h.elements k
      · rw [update_of_ne _ _ hk]
        exact h.elements k
    have hIndex : i < c.chipSize := by
      rw [h.chipSize]
      omega
    obtain ⟨c', hRest, hUnused⟩ := ih hSet (i := i + 1) (by omega)
    refine ⟨c', ?_, hUnused⟩
    rw [List.foldlM_cons, Chip.setLocation, if_pos hIndex, List.length_cons, Nat.add_comm ls.length 1,
      ← Nat.add_assoc]
    exact hRest

theorem setLocations_none (ls : List Location) {c : Chip} {i : Nat} (hi : i ≤ c.chipSize)
    (hRoom : c.chipSize < i + ls.length) : ls.foldlM Chip.setLocation (c, i) = none := by
  induction ls generalizing c i with
  | nil =>
    rw [List.length_nil] at hRoom
    omega
  | cons loc ls ih =>
    rw [List.foldlM_cons, Chip.setLocation]
    cases Nat.lt_or_ge i c.chipSize with
    | inl hIndex =>
      rw [if_pos hIndex]
      rw [List.length_cons, ← Nat.add_assoc, Nat.add_right_comm] at hRoom
      exact ih (c := c.update i fun e => { e with presentLoc := some loc }) hIndex hRoom
    | inr hEnd =>
      rw [if_neg (Nat.not_lt.mpr hEnd)]
      rfl

theorem locations_length (maxX maxY : Nat) : (locations maxX maxY).length = maxX * maxY := by
  simp [locations, List.length_flatMap]

theorem Unused.built {size : Nat} {c : Chip} (h : Unused size c) {known : List Name}
    (hRoom : known.length ≤ size) : Built known c [] := by
  refine ⟨⟨List.nodup_nil, fun name i => ?_, h.unusedElem, List.nil_subset _, ?_⟩, fun i j => ?_,
    fun i j hj => ?_⟩
  · simp [h.elemNames]
  · rwa [h.chipSize]
  · rw [(h.elements i).1, (h.elements j).2]
    rfl
  · rw [(h.elements i).1] at hj
    cases hj

end Locations

section Files

/-- The chip holds the netlist of the lines, and exactly the names in `known`. -/
structure ReadBack (known : List Name) (lines : List Line) (c : Chip) : Prop where
  names : ∀ name, (∃ i, c.elemNames name = some i) ↔ name ∈ known
  own : ∀ name name' i, c.elemNames name = some i → c.elemNames name' = some i → name = name'
  fanin : ∀ l ∈ lines, ∃ i, c.elemNames l.name = some i ∧
    List.Forall₂ (fun name j => c.elemNames name = some j) l.fanin (c.elements i).fanin
  unused : ∀ i < c.chipSize, (∀ name, c.elemNames name ≠ some i) →
    (c.elements i).fanin = [] ∧ (c.elements i).fanout = []

theorem readBack_of_built {c : Chip} {order : List Name} {lines : List Line}
    (h : Built ([] :: lines.map Line.name) c order) (hLines : LinesRead c order lines) (hEmpty : [] ∈ order) :
    ReadBack ([] :: lines.map Line.name) lines c := by
  have hNames := h.allocated.names
  refine ⟨fun name => ⟨fun hName => ?_, fun hName => ?_⟩, fun name name' i hi hi' => ?_, fun l hl => ?_,
    fun i _ hi => ?_⟩
  · obtain ⟨i, hi⟩ := hName
    exact h.allocated.subset (List.mem_of_getElem? ((hNames name i).mp hi))
  · have hIn : name ∈ order := by
      cases List.mem_cons.mp hName with
      | inl hName => rwa [hName]
      | inr hName =>
        obtain ⟨l, hl, rfl⟩ := List.mem_map.mp hName
        obtain ⟨i, hi, _⟩ := hLines.fanin l hl
        exact List.mem_of_getElem? hi
    obtain ⟨i, hi⟩ := List.mem_iff_getElem?.mp hIn
    exact ⟨i, (hNames name i).mpr hi⟩
  · exact Option.some.inj (((hNames name i).mp hi).symm.trans ((hNames name' i).mp hi'))
  · obtain ⟨i, hi, hRefers⟩ := hLines.fanin l hl
    exact ⟨i, (hNames l.name i).mpr hi, hRefers.imp fun name j hj => (hNames name j).mpr hj⟩
  · have hOut : ∀ name, order[i]? ≠ some name := fun name hName => hi name ((hNames name i).mpr hName)
    refine ⟨hLines.fresh i fun l _ => hOut l.name, List.eq_nil_iff_forall_not_mem.mpr fun j hj => ?_⟩
    have hCount : 0 < (c.elements j).fanin.count i := by
      rw [h.wired.converse j i]
      exact List.count_pos_iff.mpr hj
    have hLt := (h.wired.nets j i (List.count_pos_iff.mp hCount)).2
    exact hOut _ (List.getElem?_eq_getElem hLt)

section Header

variable {n : Nat} {text : List Char} {c : Char}

theorem readFirst_fits (hn : n ≤ uintMax) (hc : isSpace c = true) :
    readNumber uintMax (.opened (decimal n ++ c :: text)) = (some n, .opened (c :: text)) := by
  have hRead : readNumber uintMax (.opened ([] ++ (decimal n ++ c :: text))) = _ :=
    readNumber_fits hn (List.forall_mem_nil _) hc
  rwa [List.nil_append] at hRead

theorem readFirst_over (hn : uintMax < n) (hc : isSpace c = true) :
    readNumber uintMax (.opened (decimal n ++ c :: text)) = (some uintMax, ⟨c :: text, false, true⟩) := by
  have hRead : readNumber uintMax (.opened ([] ++ (decimal n ++ c :: text))) = _ :=
    readNumber_over hn (List.forall_mem_nil _) hc
  rwa [List.nil_append] at hRead

theorem readHeader_print (g : Generated) (hn : g.numElements ≤ uintMax) (hx : g.x ≤ uintMax)
    (hy : g.y ≤ uintMax) :
    readHeader g.print = ((some g.x, some g.y), .opened ('\n' :: g.lines.flatMap printLine)) := by
  rw [readHeader, readHeaderBy, Generated.print, readFirst_fits hn (by decide)]
  simp only
  rw [readNext_fits hx (by decide)]
  simp only
  rw [readNext_fits hy (by decide)]

/-- A number that is too large ends the reading, but not the file. -/
theorem readHeader_failed (g : Generated)
    (h : uintMax < g.numElements ∨ uintMax < g.x ∨ uintMax < g.y) :
    (readHeader g.print).2.fail = true ∧ (readHeader g.print).2.eof = false := by
  have hStuck : ∀ text, readNumber uintMax ⟨text, false, true⟩ = (none, ⟨text, false, true⟩) :=
    fun text => extract_failed _ rfl
  rw [readHeader, readHeaderBy, Generated.print]
  cases Nat.lt_or_ge uintMax g.numElements with
  | inl hn =>
    rw [readFirst_over hn (by decide)]
    simp only [hStuck, and_self]
  | inr hn =>
    rw [readFirst_fits hn (by decide)]
    simp only
    cases Nat.lt_or_ge uintMax g.x with
    | inl hx =>
      rw [readNext_over hx (by decide)]
      simp only [hStuck, and_self]
    | inr hx =>
      have hy : uintMax < g.y := by omega
      rw [readNext_fits hx (by decide)]
      simp only
      rw [readNext_over hy (by decide)]
      exact ⟨rfl, rfl⟩

end Header

theorem readElements_failed {s : Stream} (hFail : s.fail = true) (hEof : s.eof = false) (fuel : Nat)
    (c : Chip) : Chip.readElements fuel (c, s) = none := by
  induction fuel generalizing c with
  | zero => rfl
  | succ fuel ih =>
    have hWord : readWord s = (none, s) := extract_failed _ hFail
    have hNumber : readNumber intMax s = (none, s) := extract_failed _ hFail
    rw [Chip.readElements, Chip.readElementsBy]
    simp only [hEof, Bool.false_eq_true, if_false, Chip.readElementBy, hWord, hNumber,
      Option.getD_none, Chip.readFanin]
    cases c.createElemIfNecessary [] with
    | none => rfl
    | some r => exact ih _

theorem readElements_mono {fuel fuel' : Nat} (hFuel : fuel ≤ fuel') {s : Chip × Stream} {c : Chip}
    (h : Chip.readElements fuel s = some c) : Chip.readElements fuel' s = some c := by
  induction fuel generalizing fuel' s with
  | zero => cases h
  | succ fuel ih =>
    obtain ⟨fuel', rfl⟩ := Nat.exists_eq_add_one_of_ne_zero (show fuel' ≠ 0 by omega)
    obtain ⟨chip, fin⟩ := s
    rw [Chip.readElements, Chip.readElementsBy] at h ⊢
    cases hEof : fin.eof with
    | true => rwa [hEof] at h
    | false =>
      simp only [hEof, Bool.false_eq_true, if_false] at h ⊢
      obtain ⟨s', hTurn, hRest⟩ := Option.bind_eq_some_iff.mp h
      rw [hTurn]
      exact ih (Nat.le_of_succ_le_succ hFuel) hRest

theorem netlist_mono {maxX maxY fuel fuel' : Nat} {file : List Char} {c : Chip} (hFuel : fuel ≤ fuel')
    (h : netlist maxX maxY fuel file = some c) : netlist maxX maxY fuel' file = some c := by
  obtain ⟨s, hPlaced, hRead⟩ := Option.bind_eq_some_iff.mp h
  exact Option.bind_eq_some_iff.mpr ⟨s, hPlaced, readElements_mono hFuel hRead⟩

theorem Generated.readable (g : Generated) : ∀ l ∈ g.lines, Readable ([] :: g.lines.map Line.name) l := by
  have hKnown : ∀ i : Fin g.numElements, names i ∈ [] :: g.lines.map Line.name := fun i =>
    List.mem_cons_of_mem _ (List.mem_map.mpr ⟨g.line i, List.mem_map_of_mem (List.mem_finRange i), rfl⟩)
  have hWord : ∀ i, Word (names i) := fun i =>
    ⟨names_ne_nil i, fun c hc => (names_letters i c hc).solid⟩
  intro l hl
  obtain ⟨i, _, rfl⟩ := List.mem_map.mp hl
  refine ⟨⟨hKnown i, hWord i⟩, ?_, fun n hn => ?_⟩
  · have hType := (g.randType i).isLt
    simp only [Generated.line, intMax]
    omega
  · obtain ⟨j, _, rfl⟩ := List.mem_map.mp hn
    exact ⟨hKnown _, hWord _, names_ne_end _⟩

theorem Generated.names_nodup (g : Generated) : (g.lines.map Line.name).Nodup := by
  rw [Generated.lines, List.map_map]
  exact (List.nodup_finRange _).map fun i j h => Fin.ext (names_injective h)

theorem netlist_readBack (g : Generated) (hSize : g.x * g.y < 2 ^ 32) (maxX maxY : Nat) :
    ∃ c, netlist maxX maxY (g.numElements + 2) g.print = some c ∧
      ReadBack ([] :: g.lines.map Line.name) g.lines c := by
  have hx : g.x < g.x * g.y := (Nat.lt_mul_iff_one_lt_right (Nat.zero_lt_of_lt g.xBound)).mpr g.yBound
  have hy : g.y < g.x * g.y := (Nat.lt_mul_iff_one_lt_left (Nat.zero_lt_of_lt g.yBound)).mpr g.xBound
  have hMax : uintMax = 2 ^ 32 - 1 := rfl
  have hRoom := g.room
  have hHeader := readHeader_print g (by omega) (by omega) (by omega)
  have hEmpty : Unused (g.x * g.y) (emptyChip (g.x * g.y)) :=
    ⟨rfl, fun _ => rfl, rfl, fun _ => ⟨rfl, rfl⟩⟩
  have hLength := locations_length g.x g.y
  obtain ⟨c₁, hPlaced, hUnused⟩ := setLocations_spec (locations g.x g.y) hEmpty (i := 0) (by omega)
  have hCount : g.lines.length = g.numElements := by simp [Generated.lines]
  have hKnown : ([] :: g.lines.map Line.name).length ≤ g.x * g.y := by
    rw [List.length_cons, List.length_map, hCount]
    omega
  have hStart : LinesRead c₁ [] [] := ⟨nofun, fun i _ => (hUnused.elements i).1⟩
  obtain ⟨c₂, order, hLoop, hBuilt₂, hDone⟩ :=
    readElements_lines (hUnused.built hKnown) hStart g.readable g.names_nodup 2
  obtain ⟨c, order', hEnd, hBuilt', hDone', hIn⟩ := readElements_end hBuilt₂ List.mem_cons_self hDone
  refine ⟨c, ?_, readBack_of_built hBuilt' hDone' hIn⟩
  rw [netlist, netlistBy, ← readHeader, ← Chip.readElements, hHeader]
  simp only [Option.getD_some, Nat.mod_eq_of_lt hSize, hPlaced, Option.bind_eq_bind, Option.bind_some]
  rw [← hCount, hLoop, hEnd]

theorem netlist_large (g : Generated) (hSize : 2 ^ 32 ≤ g.x * g.y) (maxX maxY fuel : Nat) :
    netlist maxX maxY fuel g.print = none := by
  rw [netlist, netlistBy, ← readHeader, ← Chip.readElements]
  cases Decidable.em (uintMax < g.numElements ∨ uintMax < g.x ∨ uintMax < g.y) with
  | inl hLarge =>
    obtain ⟨hFail, hEof⟩ := readHeader_failed g hLarge
    generalize readHeader g.print = r at hFail hEof
    obtain ⟨⟨x, y⟩, fin⟩ := r
    simp only [readElements_failed hFail hEof]
    cases (locations (x.getD maxX) (y.getD maxY)).foldlM Chip.setLocation
      (emptyChip (x.getD maxX * y.getD maxY % 2 ^ 32), 0) <;> rfl
  | inr hFits =>
    rw [not_or, not_or, not_lt, not_lt, not_lt] at hFits
    obtain ⟨hn, hx, hy⟩ := hFits
    have hWrap : g.x * g.y % 2 ^ 32 < 2 ^ 32 := Nat.mod_lt _ (by decide)
    have hRoom : g.x * g.y % 2 ^ 32 < 0 + (locations g.x g.y).length := by
      rw [locations_length, Nat.zero_add]
      exact Nat.lt_of_lt_of_le hWrap hSize
    have hNone := setLocations_none (c := emptyChip (g.x * g.y % 2 ^ 32)) _ (Nat.zero_le _) hRoom
    rw [readHeader_print g hn hx hy]
    simp only [Option.getD_some, hNone, Option.bind_eq_bind, Option.bind_none]

/-- Whatever file the generator prints: the constructor does not end with its netlist. -/
theorem netlist_not_readBack (g : Generated) (maxX maxY : Nat) :
    ¬ ∃ fuel c, netlist maxX maxY fuel g.print = some c ∧
      ReadBack (g.lines.map Line.name) g.lines c := by
  rintro ⟨fuel, c, hCall, hRead⟩
  cases Nat.lt_or_ge (g.x * g.y) (2 ^ 32) with
  | inl hSize =>
    obtain ⟨c', hCall', hRead'⟩ := netlist_readBack g hSize maxX maxY
    have hSame : c = c' := by
      have hMore := netlist_mono (Nat.le_max_left fuel (g.numElements + 2)) hCall
      have hMore' := netlist_mono (Nat.le_max_right fuel (g.numElements + 2)) hCall'
      exact Option.some.inj (hMore.symm.trans hMore')
    obtain rfl := hSame
    have hName := (hRead.names []).mp ((hRead'.names []).mpr List.mem_cons_self)
    obtain ⟨l, hl, hEmpty⟩ := List.mem_map.mp hName
    exact (g.readable l hl).name.2.1 hEmpty
  | inr hLarge =>
    rw [netlist_large g hLarge] at hCall
    cases hCall

def smallestFile : Generated where
  numElements := 1
  x := 2
  y := 2
  xBound := Nat.one_lt_two
  yBound := Nat.one_lt_two
  room := by decide
  randType _ := ⟨0, Nat.two_pos⟩
  randomConnection _ _ := ⟨0, Nat.one_pos⟩

/-- The element behind the one of the file is in use, without a name. -/
theorem smallestFile_extra :
    (netlist 0 0 3 smallestFile.print).map (fun c => (c.elemNames ['a'], c.elemNames [])) =
      some (some 0, some 1) ∧ [] ∉ smallestFile.lines.map Line.name := by
  decide +kernel

end Files

end Trident.Canneal
