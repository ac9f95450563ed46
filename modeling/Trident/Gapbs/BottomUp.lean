import Mathlib.Algebra.Order.BigOperators.Group.Finset
import Trident.Gapbs.Bfs

/-! # The bottom-up steps

`QueueToBitmap` adds the window of the queue to a bitmap, and `BUStep` finds a parent for every node
behind it. What lies between two calls of `BUStep` is the same level in both bitmaps.
-/

namespace Trident.Gapbs

open Relation Transition Distances Bitmap

section Bits

theorem Bitmap.bitOffset_eq (n : Nat) : bitOffset n = n % 64 := Nat.and_two_pow_sub_one_eq_mod n 6

theorem Bitmap.getLsbD_bitMask (pos k : Nat) : (bitMask pos).getLsbD k = decide (k = pos % 64) := by
  rw [bitMask, bitOffset_eq, BitVec.getLsbD_shiftLeft, BitVec.getLsbD_one]
  have hLt := Nat.mod_lt pos (show 0 < 64 by decide)
  rw [Bool.eq_iff_iff]
  simp only [Bool.and_eq_true, Bool.not_eq_true', decide_eq_true_eq, decide_eq_false_iff_not]
  omega

variable (bm : Bitmap)

theorem Bitmap.getBit_iff (pos : Nat) : GetBit bm pos ↔ (bm (pos / 64)).getLsbD (pos % 64) = true := by
  rw [GetBit, wordOffset, bitOffset_eq, BitVec.and_one_eq_setWidth_ofBool_getLsbD,
    BitVec.getLsbD_ushiftRight, Nat.add_zero]
  cases (bm (pos / 64)).getLsbD (pos % 64) <;> decide

theorem Bitmap.getBit_reset {size pos : Nat} (h : pos < size) : ¬ GetBit (reset size bm) pos := by
  rw [getBit_iff, reset, if_pos (by omega), BitVec.getLsbD_zero]
  exact Bool.false_ne_true

theorem Bitmap.getBit_setBit (pos p : Nat) : GetBit (setBit bm pos) p ↔ p = pos ∨ GetBit bm p := by
  rw [getBit_iff, getBit_iff, setBit, wordOffset]
  obtain hWord | hWord := eq_or_ne (p / 64) (pos / 64)
  · rw [hWord, Function.update_self, BitVec.getLsbD_or, getLsbD_bitMask, Bool.or_eq_true,
      decide_eq_true_eq]
    constructor
    · rintro (hOld | hNew)
      · exact Or.inr hOld
      · exact Or.inl (by omega)
    · rintro (rfl | hOld)
      · exact Or.inr rfl
      · exact Or.inl hOld
  · rw [Function.update_of_ne hWord]
    constructor
    · exact Or.inr
    · rintro (rfl | hOld)
      · exact absurd rfl hWord
      · exact hOld

end Bits

section Setters

variable {numNodes : Nat} {queue : SlidingQueue} {front₀ front front' : Bitmap}
  {setters setters' : Fin numNodes → BitSetter}

def SlidingQueue.InWindow (queue : SlidingQueue) (c : Nat) : Prop := queue.outStart ≤ c ∧ c < queue.outEnd

def SetPhase.Ok (queue : SlidingQueue) (c : Nat) : SetPhase → Prop
  | .turn => queue.InWindow c
  | .setting u => queue.InWindow c ∧ u = queue.shared c
  | .loaded u _ => queue.InWindow c ∧ u = queue.shared c
  | .finished => True

structure SettersInv (queue : SlidingQueue) (front₀ front : Bitmap) (setters : Fin numNodes → BitSetter) :
    Prop where
  place : ∀ c, (setters c).qIter = c
  phase : ∀ c, (setters c).phase.Ok queue c
  bits : ∀ p, GetBit front p ↔ GetBit front₀ p ∨
    ∃ c : Fin numNodes, queue.InWindow c ∧ (setters c).phase = .finished ∧ queue.shared c = p

theorem settersInv_start (queue : SlidingQueue) (front : Bitmap) :
    SettersInv queue front front fun c : Fin numNodes => setter queue c where
  place _ := rfl
  phase c := by
    rw [setter]
    dsimp only
    split
    · assumption
    · trivial
  bits p := by
    constructor
    · exact Or.inl
    · rintro (hOld | ⟨c, hIn, hPhase, _⟩)
      · exact hOld
      · rw [SlidingQueue.InWindow] at hIn
        rw [setter, if_pos hIn] at hPhase
        cases hPhase

/-- A turn that goes on leaves the bits as they are. -/
theorem SettersInv.keep (h : SettersInv queue front₀ front setters) {c : Fin numNodes} {next : BitSetter}
    (hPlace : next.qIter = (setters c).qIter) (hOk : next.phase.Ok queue c)
    (hBefore : (setters c).phase ≠ .finished) (hAfter : next.phase ≠ .finished) :
    SettersInv queue front₀ front (Function.update setters c next) where
  place c' := by
    obtain rfl | hNe := eq_or_ne c' c
    · rw [Function.update_self, hPlace, h.place]
    · rw [Function.update_of_ne hNe, h.place]
  phase c' := by
    obtain rfl | hNe := eq_or_ne c' c
    · rwa [Function.update_self]
    · rw [Function.update_of_ne hNe]
      exact h.phase c'
  bits p := by
    rw [h.bits p]
    refine or_congr_right (exists_congr fun c' => and_congr_right fun _ => and_congr_left fun _ => ?_)
    obtain rfl | hNe := eq_or_ne c' c
    · rw [Function.update_self]
      exact iff_of_false hBefore hAfter
    · rw [Function.update_of_ne hNe]

theorem SettersInv.set (h : SettersInv queue front₀ front setters) {c : Fin numNodes} {next : BitSetter}
    (hPlace : next.qIter = (setters c).qIter) (hIn : queue.InWindow c) (hAfter : next.phase = .finished) :
    SettersInv queue front₀ (setBit front (queue.shared c)) (Function.update setters c next) where
  place c' := by
    obtain rfl | hNe := eq_or_ne c' c
    · rw [Function.update_self, hPlace, h.place]
    · rw [Function.update_of_ne hNe, h.place]
  phase c' := by
    obtain rfl | hNe := eq_or_ne c' c
    · rw [Function.update_self, hAfter]
      trivial
    · rw [Function.update_of_ne hNe]
      exact h.phase c'
  bits p := by
    rw [getBit_setBit, h.bits p]
    constructor
    · rintro (rfl | hOld | ⟨c', hIn', hPhase, rfl⟩)
      · exact Or.inr ⟨c, hIn, by rw [Function.update_self, hAfter], rfl⟩
      · exact Or.inl hOld
      · refine Or.inr ⟨c', hIn', ?_, rfl⟩
        obtain rfl | hNe := eq_or_ne c' c
        · rw [Function.update_self, hAfter]
        · rwa [Function.update_of_ne hNe]
    · rintro (hOld | ⟨c', hIn', hPhase, rfl⟩)
      · exact Or.inr (Or.inl hOld)
      · obtain rfl | hNe := eq_or_ne c' c
        · exact Or.inl rfl
        · rw [Function.update_of_ne hNe] at hPhase
          exact Or.inr (Or.inr ⟨c', hIn', hPhase, rfl⟩)

def SetPhase.weight (numNodes : Nat) (bm : Bitmap) : SetPhase → Nat
  | .turn => 2 * numNodes + 4
  | .setting _ => 2 * numNodes + 2
  | .loaded u oldVal => if bm (wordOffset u) = oldVal then 2 * numNodes + 1 else 2 * numNodes + 3
  | .finished => 0

theorem SetPhase.weight_le (numNodes : Nat) (bm bm' : Bitmap) (phase : SetPhase) :
    phase.weight numNodes bm' ≤ phase.weight numNodes bm + 2 := by
  cases phase with
  | turn | setting | finished => exact Nat.le_add_right _ 2
  | loaded u oldVal =>
    rw [weight, weight]
    split <;> split <;> omega

def settersWeight (front : Bitmap) (setters : Fin numNodes → BitSetter) : Nat :=
  ∑ c, (setters c).phase.weight numNodes front

/-- A swap may send every other turn back once. -/
theorem settersWeight_le (front front' : Bitmap) (setters : Fin numNodes → BitSetter) :
    settersWeight front' setters ≤ settersWeight front setters + 2 * numNodes := by
  have hEach : settersWeight front' setters ≤ ∑ c, ((setters c).phase.weight numNodes front + 2) :=
    Finset.sum_le_sum fun c _ => (setters c).phase.weight_le numNodes front front'
  rwa [Finset.sum_add_distrib, Finset.sum_const, Finset.card_univ, Fintype.card_fin, nsmul_eq_mul,
    Nat.mul_comm] at hEach

theorem SettersInv.step (h : SettersInv queue front₀ front setters)
    (hTurn : Interleave (fun m l m' l' => setterStep queue m l = some (m', l')) (front, setters)
      (front', setters')) :
    SettersInv queue front₀ front' setters' ∧ settersWeight front' setters' < settersWeight front setters := by
  obtain ⟨c, next, hStep, rfl⟩ := hTurn
  dsimp only at hStep ⊢
  have hOk := h.phase c
  obtain ⟨phase, hPhase⟩ : ∃ phase, (setters c).phase = phase := ⟨_, rfl⟩
  rw [setterStep, hPhase] at hStep
  rw [hPhase] at hOk
  have hLess : ∀ {next : BitSetter}, next.phase.weight numNodes front < phase.weight numNodes front →
      settersWeight front (Function.update setters c next) < settersWeight front setters := by
    intro next hLess
    rw [← hPhase] at hLess
    exact sum_update_lt (fun s : BitSetter => s.phase.weight numNodes front) setters hLess
  cases phase with
  | turn =>
    cases hStep
    constructor
    · apply h.keep
      · rfl
      · exact ⟨hOk, by rw [h.place]⟩
      · simp [hPhase]
      · simp
    · apply hLess
      rw [SetPhase.weight, SetPhase.weight]
      omega
  | setting u =>
    cases hStep
    constructor
    · apply h.keep
      · rfl
      · exact hOk
      · simp [hPhase]
      · simp
    · apply hLess
      rw [SetPhase.weight, SetPhase.weight, if_pos rfl]
      omega
  | loaded u oldVal =>
    dsimp only at hStep
    split at hStep
    · rename_i hSame
      cases hStep
      obtain ⟨hIn, rfl⟩ := hOk
      have hSet : Function.update front (wordOffset (queue.shared c)) (oldVal ||| bitMask (queue.shared c)) =
          setBit front (queue.shared c) := by rw [setBit, hSame]
      rw [hSet]
      constructor
      · exact h.set rfl hIn rfl
      · have hSum := sum_update_add (fun s : BitSetter => s.phase.weight numNodes front) setters c
          { setters c with phase := .finished }
        have hBack := settersWeight_le front (setBit front (queue.shared c))
          (Function.update setters c { setters c with phase := .finished })
        rw [hPhase, SetPhase.weight, if_pos hSame] at hSum
        simp only [settersWeight, SetPhase.weight] at hBack hSum ⊢
        omega
    · rename_i hOther
      cases hStep
      constructor
      · apply h.keep
        · rfl
        · exact hOk
        · simp [hPhase]
        · simp
      · apply hLess
        rw [SetPhase.weight, SetPhase.weight, if_neg hOther]
        omega
  | finished => cases hStep

theorem exists_setterStep (queue : SlidingQueue) (front : Bitmap) {c : Fin numNodes} (hOn : (setters c).phase ≠ .finished) :
    ∃ s, Interleave (fun m l m' l' => setterStep queue m l = some (m', l')) (front, setters) s := by
  suffices hStep : ∃ s, setterStep queue front (setters c) = some s by
    obtain ⟨⟨front', next⟩, hStep⟩ := hStep
    exact ⟨(front', Function.update setters c next), c, next, hStep, rfl⟩
  rw [setterStep]
  split
  · exact ⟨_, rfl⟩
  · exact ⟨_, rfl⟩
  · split
    · exact ⟨_, rfl⟩
    · exact ⟨_, rfl⟩
  · contradiction

theorem SettersInv.finished (h : SettersInv queue front₀ front setters) (hEnd : queue.outEnd ≤ numNodes)
    (hAll : ∀ c, (setters c).phase = .finished) (p : Nat) :
    GetBit front p ↔ GetBit front₀ p ∨ p ∈ queue.window := by
  rw [h.bits p]
  apply or_congr_right
  constructor
  · rintro ⟨c, hIn, _, rfl⟩
    exact List.mem_map_of_mem (List.mem_range'_1.mpr ⟨hIn.1, by have := hIn.2; rw [SlidingQueue.size]; omega⟩)
  · intro hp
    obtain ⟨c, hc, rfl⟩ := List.mem_map.mp hp
    rw [SlidingQueue.places, List.mem_range'_1, SlidingQueue.size] at hc
    exact ⟨⟨c, by omega⟩, ⟨hc.1, show c < queue.outEnd by omega⟩, hAll _, rfl⟩

end Setters

section Chunks

variable {g : Graph} {front next next' : Bitmap} {parent₀ parent parent' : Nat → Int} {c : Nat}
  {s s' : BottomUp}

/-- The parent that `BUStep` finds for a node. -/
def awakens (g : Graph) (front : Bitmap) (parent : Nat → Int) (u : Nat) : Option Nat :=
  if parent u < 0 then (g.inNeigh u 0).find? fun v => GetBit front v else none

theorem awakens_some {u v : Nat} (h : awakens g front parent u = some v) :
    parent u < 0 ∧ v ∈ g.inNeigh u 0 ∧ GetBit front v := by
  rw [awakens] at h
  split at h
  · rename_i hFree
    exact ⟨hFree, List.mem_of_find?_eq_some h, by simpa using List.find?_some h⟩
  · cases h

theorem awakens_isSome {u v : Nat} (hFree : parent u < 0) (hv : v ∈ g.inNeigh u 0)
    (hBit : GetBit front v) : (awakens g front parent u).isSome := by
  rw [awakens, if_pos hFree]
  exact List.find?_isSome.mpr ⟨v, hv, decide_eq_true hBit⟩

theorem mem_chunkNodes {numNodes c u : Nat} :
    u ∈ chunkNodes numNodes c ↔ u / chunkSize = c ∧ u < numNodes := by
  rw [chunkNodes, List.mem_range'_1, chunkSize]
  omega

def BottomUpPhase.Sets (u : Nat) : BottomUpPhase → Prop
  | .looking => False
  | .setting v => u = v
  | .loaded v _ => u = v

def BottomUpPhase.Loads (next : Bitmap) : BottomUpPhase → Prop
  | .loaded u word => word = next (wordOffset u)
  | _ => True

/-- The nodes of the chunk that are not left have what `BUStep` gives them, up to a bit at hand. -/
structure ChunkOk (g : Graph) (front : Bitmap) (parent₀ parent : Nat → Int) (next : Bitmap) (c : Nat)
    (s : BottomUp) : Prop where
  todo : ∀ u ∈ s.todo, u ∈ chunkNodes g.numNodes c
  nodup : s.todo.Nodup
  before : ∀ u ∈ s.todo, parent u = parent₀ u
  behind : ∀ u ∈ chunkNodes g.numNodes c, u ∉ s.todo →
    parent u = (awakens g front parent₀ u).elim (parent₀ u) (↑·)
  bits : ∀ u ∈ chunkNodes g.numNodes c, GetBit next u ↔
    u ∉ s.todo ∧ (awakens g front parent₀ u).isSome ∧ ¬ s.phase.Sets u
  sets : ∀ u, s.phase.Sets u →
    u ∈ chunkNodes g.numNodes c ∧ u ∉ s.todo ∧ (awakens g front parent₀ u).isSome
  loads : s.phase.Loads next
  awake : 0 < s.awake → ∃ u ∈ chunkNodes g.numNodes c, (awakens g front parent₀ u).isSome

theorem chunkOk_start (g : Graph) (front curr : Bitmap) (parent : Nat → Int)
    (c : Fin (numChunks g.numNodes)) :
    ChunkOk g front parent parent (reset g.numNodes curr) c (bottomUps g.numNodes c) where
  todo _ hu := hu
  nodup := List.nodup_range' ..
  before _ _ := rfl
  behind u hu hNot := absurd hu hNot
  bits u hu := by
    refine iff_of_false (getBit_reset curr (mem_chunkNodes.mp hu).2) ?_
    exact fun h => h.1 hu
  sets _ hSets := hSets.elim
  loads := trivial
  awake hPos := absurd hPos (Nat.lt_irrefl 0)

/-- The other chunks have other cells and other words. -/
theorem ChunkOk.frame (h : ChunkOk g front parent₀ parent next c s)
    (hParent : ∀ u ∈ chunkNodes g.numNodes c, parent' u = parent u)
    (hNext : ∀ u ∈ chunkNodes g.numNodes c, next' (wordOffset u) = next (wordOffset u)) :
    ChunkOk g front parent₀ parent' next' c s where
  todo := h.todo
  nodup := h.nodup
  before u hu := (hParent u (h.todo u hu)).trans (h.before u hu)
  behind u hu hNot := (hParent u hu).trans (h.behind u hu hNot)
  bits u hu := by
    rw [← h.bits u hu, GetBit, GetBit, hNext u hu]
  sets := h.sets
  loads := by
    obtain ⟨phase, hPhase⟩ : ∃ phase, s.phase = phase := ⟨_, rfl⟩
    have hLoads := h.loads
    have hSets := h.sets
    rw [hPhase] at hLoads hSets ⊢
    cases phase with
    | loaded u word => exact hLoads.trans (hNext u (hSets u rfl).1).symm
    | looking | setting => trivial
  awake := h.awake

def BottomUp.weight (s : BottomUp) : Nat :=
  4 * s.todo.length + match s.phase with
    | .looking => 0
    | .setting _ => 2
    | .loaded _ _ => 1

section Turns

variable {u : Nat} {todo : List Nat} {awake : Nat}

theorem ChunkOk.bits_looking (h : ChunkOk g front parent₀ parent next c ⟨u :: todo, awake, .looking⟩)
    {v : Nat} (hv : v ∈ chunkNodes g.numNodes c) (hNe : v ≠ u) :
    GetBit next v ↔ v ∉ todo ∧ (awakens g front parent₀ v).isSome := by
  rw [h.bits v hv, List.mem_cons, or_iff_right hNe]
  exact and_congr_right fun _ => and_iff_left id

theorem ChunkOk.bit_clear (h : ChunkOk g front parent₀ parent next c ⟨u :: todo, awake, .looking⟩) :
    ¬ GetBit next u := by
  intro hBit
  exact ((h.bits u (h.todo u List.mem_cons_self)).mp hBit).1 List.mem_cons_self

theorem ChunkOk.pass (h : ChunkOk g front parent₀ parent next c ⟨u :: todo, awake, .looking⟩)
    (hNone : awakens g front parent₀ u = none) :
    ChunkOk g front parent₀ parent next c ⟨todo, awake, .looking⟩ where
  todo v hv := h.todo v (List.mem_cons_of_mem u hv)
  nodup := (List.nodup_cons.mp h.nodup).2
  before v hv := h.before v (List.mem_cons_of_mem u hv)
  behind v hv hNot := by
    obtain rfl | hNe := eq_or_ne v u
    · rw [hNone]
      exact h.before v List.mem_cons_self
    · exact h.behind v hv (List.not_mem_cons_of_ne_of_not_mem hNe hNot)
  bits v hv := by
    obtain rfl | hNe := eq_or_ne v u
    · rw [hNone]
      exact iff_of_false h.bit_clear fun hSome => Bool.false_ne_true hSome.2.1
    · rw [h.bits_looking hv hNe]
      exact and_congr_right fun _ => (and_iff_left id).symm
  sets _ hSets := hSets.elim
  loads := trivial
  awake := h.awake

theorem ChunkOk.adopt (h : ChunkOk g front parent₀ parent next c ⟨u :: todo, awake, .looking⟩) {v : Nat}
    (hSome : awakens g front parent₀ u = some v) :
    ChunkOk g front parent₀ (Function.update parent u v) next c ⟨todo, awake + 1, .setting u⟩ := by
  obtain ⟨hFresh, hNodup⟩ := List.nodup_cons.mp h.nodup
  have hu : u ∈ chunkNodes g.numNodes c := h.todo u List.mem_cons_self
  have hFound : (awakens g front parent₀ u).isSome := by
    rw [hSome]
    rfl
  constructor
  · exact fun w hw => h.todo w (List.mem_cons_of_mem u hw)
  · exact hNodup
  · intro w hw
    have hNe : w ≠ u := by
      rintro rfl
      exact hFresh hw
    rw [Function.update_of_ne hNe]
    exact h.before w (List.mem_cons_of_mem u hw)
  · intro w hw hNot
    obtain rfl | hNe := eq_or_ne w u
    · rw [Function.update_self, hSome]
      rfl
    · rw [Function.update_of_ne hNe]
      exact h.behind w hw (List.not_mem_cons_of_ne_of_not_mem hNe hNot)
  · intro w hw
    obtain rfl | hNe := eq_or_ne w u
    · exact iff_of_false h.bit_clear fun hBit => hBit.2.2 rfl
    · rw [h.bits_looking hw hNe]
      exact and_congr_right fun _ => (and_iff_left hNe).symm
  · rintro w rfl
    exact ⟨hu, hFresh, hFound⟩
  · trivial
  · exact fun _ => ⟨u, hu, hFound⟩

theorem ChunkOk.set {word : BitVec 64}
    (h : ChunkOk g front parent₀ parent next c ⟨todo, awake, .loaded u word⟩) :
    ChunkOk g front parent₀ parent (setBit next u) c ⟨todo, awake, .looking⟩ := by
  obtain ⟨_, hNot, hSome⟩ := h.sets u rfl
  refine ⟨h.todo, h.nodup, h.before, h.behind, ?_, fun _ hSets => hSets.elim, trivial, h.awake⟩
  intro v hv
  rw [getBit_setBit, h.bits v hv]
  constructor
  · rintro (rfl | ⟨hBehind, hFound, _⟩)
    · exact ⟨hNot, hSome, id⟩
    · exact ⟨hBehind, hFound, id⟩
  · rintro ⟨hBehind, hFound, _⟩
    obtain rfl | hNe := eq_or_ne v u
    · exact Or.inl rfl
    · exact Or.inr ⟨hBehind, hFound, hNe⟩

end Turns

/-- The step of a chunk: what it keeps, and that it lets the cells of the others alone. -/
theorem bottomUpStep_spec (h : ChunkOk g front parent₀ parent next c s)
    (hStep : bottomUpStep g front parent next s = some (parent', next', s')) :
    ChunkOk g front parent₀ parent' next' c s' ∧ s'.weight < s.weight ∧
      (∀ u ∉ chunkNodes g.numNodes c, parent' u = parent u) ∧
      ∀ w, w / 16 ≠ c → next' w = next w := by
  obtain ⟨todo, awake, phase⟩ := s
  cases phase with
  | looking =>
    cases todo with
    | nil => cases hStep
    | cons u todo =>
      have hOld : parent u = parent₀ u := h.before u List.mem_cons_self
      have hWeight : ∀ n, BottomUp.weight ⟨todo, n, .setting u⟩ < BottomUp.weight ⟨u :: todo, awake, .looking⟩ ∧
          BottomUp.weight ⟨todo, n, .looking⟩ < BottomUp.weight ⟨u :: todo, awake, .looking⟩ := by
        intro n
        simp only [BottomUp.weight, List.length_cons]
        omega
      simp only [bottomUpStep] at hStep
      split at hStep
      · rename_i hFree
        have hFound : awakens g front parent₀ u = (g.inNeigh u 0).find? fun v => GetBit front v := by
          rw [awakens, ← hOld, if_pos hFree]
        split at hStep
        · rename_i v hv
          cases hStep
          refine ⟨h.adopt (hFound.trans hv), (hWeight _).1, fun w hw => ?_, fun w _ => rfl⟩
          apply Function.update_of_ne
          rintro rfl
          exact hw (h.todo w List.mem_cons_self)
        · rename_i hNone
          cases hStep
          exact ⟨h.pass (hFound.trans hNone), (hWeight _).2, fun _ _ => rfl, fun _ _ => rfl⟩
      · rename_i hTaken
        cases hStep
        have hNone : awakens g front parent₀ u = none := by rw [awakens, ← hOld, if_neg hTaken]
        exact ⟨h.pass hNone, (hWeight _).2, fun _ _ => rfl, fun _ _ => rfl⟩
  | setting u =>
    cases hStep
    refine ⟨⟨h.todo, h.nodup, h.before, h.behind, h.bits, h.sets, rfl, h.awake⟩, ?_, fun _ _ => rfl,
      fun _ _ => rfl⟩
    simp only [BottomUp.weight]
    omega
  | loaded u word =>
    have hWord : word = next (wordOffset u) := h.loads
    have hSet : Function.update next (wordOffset u) (word ||| bitMask u) = setBit next u := by
      rw [setBit, hWord]
    simp only [bottomUpStep, hSet] at hStep
    cases hStep
    refine ⟨h.set, ?_, fun _ _ => rfl, fun w hw => ?_⟩
    · simp only [BottomUp.weight]
      omega
    · apply Function.update_of_ne
      rintro rfl
      have hChunk := (mem_chunkNodes.mp (h.sets u rfl).1).1
      rw [wordOffset, chunkSize] at *
      omega

end Chunks

section Rounds

variable {g : Graph} {front next next' : Bitmap} {parent₀ parent parent' : Nat → Int}
  {chunks chunks' : Fin (numChunks g.numNodes) → BottomUp} {source k : Nat}

def BottomUpInv (g : Graph) (front : Bitmap) (parent₀ parent : Nat → Int) (next : Bitmap)
    (chunks : Fin (numChunks g.numNodes) → BottomUp) : Prop :=
  (∀ c : Fin (numChunks g.numNodes), ChunkOk g front parent₀ parent next c (chunks c)) ∧
    ∀ u, g.numNodes ≤ u → parent u = parent₀ u

theorem bottomUpInv_start (g : Graph) (front curr : Bitmap) (parent : Nat → Int) :
    BottomUpInv g front parent parent (reset g.numNodes curr) (bottomUps g.numNodes) :=
  ⟨chunkOk_start g front curr parent, fun _ _ => rfl⟩

theorem BottomUpInv.step (h : BottomUpInv g front parent₀ parent next chunks)
    (hTurn : Interleave (fun m l m' l' => bottomUpStep g front m.1 m.2 l = some (m'.1, m'.2, l'))
      ((parent, next), chunks) ((parent', next'), chunks')) :
    BottomUpInv g front parent₀ parent' next' chunks' ∧
      ∑ c, (chunks' c).weight < ∑ c, (chunks c).weight := by
  obtain ⟨c, s', hStep, rfl⟩ := hTurn
  dsimp only at hStep ⊢
  obtain ⟨hOk, hWeight, hParent, hNext⟩ := bottomUpStep_spec (h.1 c) hStep
  refine ⟨⟨fun c' => ?_, fun u hu => ?_⟩, sum_update_lt BottomUp.weight chunks hWeight⟩
  · obtain rfl | hNe := eq_or_ne c' c
    · rw [Function.update_self]
      exact hOk
    · rw [Function.update_of_ne hNe]
      apply (h.1 c').frame
      · intro u hu
        apply hParent
        intro hOwn
        exact hNe (Fin.ext ((mem_chunkNodes.mp hu).1.symm.trans (mem_chunkNodes.mp hOwn).1))
      · intro u hu
        apply hNext
        intro hOwn
        have hChunk := (mem_chunkNodes.mp hu).1
        rw [wordOffset] at hOwn
        rw [chunkSize] at hChunk
        exact hNe (Fin.ext (by omega))
  · rw [hParent u fun hOwn => absurd (mem_chunkNodes.mp hOwn).2 (not_lt.mpr hu)]
    exact h.2 u hu

theorem exists_bottomUpStep (front : Bitmap) (parent : Nat → Int) (next : Bitmap)
    {c : Fin (numChunks g.numNodes)}
    (hOn : ¬ ((chunks c).todo = [] ∧ (chunks c).phase = .looking)) :
    ∃ s, Interleave (fun m l m' l' => bottomUpStep g front m.1 m.2 l = some (m'.1, m'.2, l'))
      ((parent, next), chunks) s := by
  suffices hStep : ∃ s, bottomUpStep g front parent next (chunks c) = some s by
    obtain ⟨⟨parent', next', s'⟩, hStep⟩ := hStep
    exact ⟨((parent', next'), Function.update chunks c s'), c, s', hStep, rfl⟩
  rw [bottomUpStep]
  split
  · rename_i hPhase
    split
    · rename_i hTodo
      exact absurd ⟨hTodo, hPhase⟩ hOn
    · split
      · split
        · exact ⟨_, rfl⟩
        · exact ⟨_, rfl⟩
      · exact ⟨_, rfl⟩
  · exact ⟨_, rfl⟩
  · exact ⟨_, rfl⟩

/-- What all chunks together have done at the end. -/
theorem BottomUpInv.finished (h : BottomUpInv g front parent₀ parent next chunks)
    (hDone : ∀ c, (chunks c).todo = [] ∧ (chunks c).phase = .looking) {u : Nat} (hu : u < g.numNodes) :
    parent u = (awakens g front parent₀ u).elim (parent₀ u) (↑·) ∧
      (GetBit next u ↔ (awakens g front parent₀ u).isSome) := by
  have hChunk : u / chunkSize < numChunks g.numNodes := by
    rw [numChunks, chunkSize]
    omega
  have hOk := h.1 ⟨u / chunkSize, hChunk⟩
  obtain ⟨hTodo, hPhase⟩ := hDone ⟨u / chunkSize, hChunk⟩
  have hMem : u ∈ chunkNodes g.numNodes (u / chunkSize) := mem_chunkNodes.mpr ⟨rfl, hu⟩
  have hNot : u ∉ (chunks ⟨u / chunkSize, hChunk⟩).todo := by
    rw [hTodo]
    exact List.not_mem_nil
  refine ⟨hOk.behind u hMem hNot, (hOk.bits u hMem).trans ?_⟩
  rw [hPhase]
  exact ⟨fun hBit => hBit.2.1, fun hSome => ⟨hNot, hSome, id⟩⟩

def parentOf (parent : Nat → Int) (v : Nat) : Option Nat :=
  if parent v < 0 then none else some (parent v).toNat

theorem parentOf_eq_none {v : Nat} : parentOf parent v = none ↔ parent v < 0 := by
  rw [parentOf]
  split
  · exact iff_of_true rfl (by assumption)
  · exact iff_of_false (Option.some_ne_none _) (by assumption)

theorem parentOf_eq_some {u v : Nat} : parentOf parent v = some u ↔ parent v = u := by
  rw [parentOf]
  split
  · exact iff_of_false nofun (by omega)
  · rw [Option.some_inj]
    omega

theorem parentOf_congr {v : Nat} (h : parent v = parent' v) : parentOf parent v = parentOf parent' v := by
  rw [parentOf, h, parentOf]

/-- The bitmap holds the level; the bits of earlier levels may be left in it. -/
structure Fronts (g : Graph) (source k : Nat) (front : Bitmap) : Prop where
  level : ∀ u, Level g.arc source u k → GetBit front u
  stale : ∀ u < g.numNodes, GetBit front u → ∃ j ≤ k, Level g.arc source u j

theorem arc_of_in {u v : Nat} (hv : v < g.numNodes) (hu : u ∈ g.inNeigh v 0) : g.arc u v :=
  ⟨g.in_lt v hv u hu, (g.inverse u (g.in_lt v hv u hu) v hv).mpr hu⟩

theorem Graph.arc.in {u v : Nat} (h : g.arc u v) : v < g.numNodes ∧ u ∈ g.inNeigh v 0 := by
  have hv := g.out_lt u h.1 v h.2
  exact ⟨hv, (g.inverse u h.1 v hv).mp h.2⟩

theorem level_lt (hSource : source < g.numNodes) {v n : Nat} (h : Level g.arc source v n) :
    v < g.numNodes :=
  h.route.closed (p := (· < g.numNodes)) hSource fun _ _ _ _ hArc => hArc.1.in.1

/-- A node that wakes up has its parent on the level, whatever bits are left from before. -/
theorem Fronts.awakens_level (hFront : Fronts g source k front)
    (h : SearchedTo g.arc source k (parentOf parent₀)) {u v : Nat} (hu : u < g.numNodes)
    (hAwake : awakens g front parent₀ u = some v) :
    g.arc v u ∧ Level g.arc source v k ∧ Level g.arc source u (k + 1) := by
  obtain ⟨hFree, hv, hBit⟩ := awakens_some hAwake
  have hArc := arc_of_in hu hv
  obtain ⟨j, hj, hLevel⟩ := hFront.stale v hArc.1 hBit
  obtain ⟨rfl, hNext⟩ := h.level_of_arc (parentOf_eq_none.mpr hFree) hArc hj hLevel
  exact ⟨hArc, hLevel, hNext⟩

theorem BottomUpInv.nextLevel (hInv : BottomUpInv g front parent₀ parent next chunks)
    (hDone : ∀ c, (chunks c).todo = [] ∧ (chunks c).phase = .looking)
    (h : SearchedTo g.arc source k (parentOf parent₀)) (hFront : Fronts g source k front) :
    NextLevel g.arc source k (parentOf parent₀) (parentOf parent) ∧
      ∀ u < g.numNodes, GetBit next u ↔ Level g.arc source u (k + 1) := by
  have hKeep : ∀ v u, parentOf parent₀ v = some u → parentOf parent v = some u := by
    intro v u hu
    rw [parentOf_eq_some] at hu ⊢
    rcases Nat.lt_or_ge v g.numNodes with hIn | hOut
    · have hNone : awakens g front parent₀ v = none := by
        rw [awakens, if_neg (by omega)]
      rw [(hInv.finished hDone hIn).1, hNone]
      exact hu
    · rw [hInv.2 v hOut, hu]
  have hSome : ∀ u v, Level g.arc source u k → g.arc u v → parentOf parent₀ v = none →
      (awakens g front parent₀ v).isSome := fun u v hu hArc hFree =>
    awakens_isSome (parentOf_eq_none.mp hFree) hArc.in.2 (hFront.level u hu)
  refine ⟨⟨hKeep, fun v u hOld hNew => ?_, fun u v hu hArc => ?_⟩, fun u hu => ?_⟩
  · rcases Nat.lt_or_ge v g.numNodes with hIn | hOut
    · have hEnd := (hInv.finished hDone hIn).1
      cases hAwake : awakens g front parent₀ v with
      | none =>
        rw [hAwake] at hEnd
        rw [parentOf_congr hEnd, hOld] at hNew
        cases hNew
      | some w =>
        rw [hAwake] at hEnd
        rw [parentOf_eq_some, hEnd] at hNew
        obtain rfl : w = u := Int.ofNat_inj.mp hNew
        obtain ⟨hArc, hLevel, _⟩ := hFront.awakens_level h hIn hAwake
        exact ⟨hArc, hLevel⟩
    · rw [parentOf_congr (hInv.2 v hOut), hOld] at hNew
      cases hNew
  · cases hOld : parentOf parent₀ v with
    | none =>
      obtain ⟨w, hw⟩ := Option.isSome_iff_exists.mp (hSome u v hu hArc hOld)
      have hEnd := (hInv.finished hDone hArc.in.1).1
      rw [hw] at hEnd
      rw [parentOf_eq_some.mpr hEnd]
      rfl
    | some w =>
      rw [hKeep v w hOld]
      rfl
  · rw [(hInv.finished hDone hu).2]
    constructor
    · intro hAwake
      obtain ⟨v, hv⟩ := Option.isSome_iff_exists.mp hAwake
      exact (hFront.awakens_level h hu hv).2.2
    · intro hLevel
      obtain ⟨w, hArc, hw⟩ := hLevel.nearer
      apply hSome w u hw hArc
      by_contra hTaken
      obtain ⟨n, hn, hOther⟩ := (h.visited u).mp (Option.isSome_iff_ne_none.mpr hTaken)
      have hSame := hOther.unique hLevel
      omega

/-- Who is awake stands on the next level. -/
theorem BottomUpInv.level_of_awake (hInv : BottomUpInv g front parent₀ parent next chunks)
    (h : SearchedTo g.arc source k (parentOf parent₀)) (hFront : Fronts g source k front)
    (hAwake : 0 < ∑ c, (chunks c).awake) : ∃ u, Level g.arc source u (k + 1) := by
  obtain ⟨c, _, hc⟩ := Finset.exists_ne_zero_of_sum_ne_zero hAwake.ne'
  obtain ⟨u, hu, hSome⟩ := (hInv.1 c).awake (Nat.pos_of_ne_zero hc)
  obtain ⟨v, hv⟩ := Option.isSome_iff_exists.mp hSome
  exact ⟨u, (hFront.awakens_level h (mem_chunkNodes.mp hu).2 hv).2.2⟩

end Rounds

end Trident.Gapbs
