import Trident.Gapbs.Afforest

/-! # Links and compression

What one step of `Link` and one of `Compress` keep: `Link` hangs a root under a node that belongs to
the same component, and what it reads later leads to smaller nodes; `Compress` changes no root.
-/

namespace Trident.Gapbs

open Forest

section Links

variable {n : Nat} {r : Nat → Nat → Prop} {comp comp' : Nat → Nat}

/-- Pointers go down, inside the components of the graph. -/
structure ForestOk (r : Nat → Nat → Prop) (comp : Nat → Nat) : Prop where
  descends : Descends comp
  sound : ∀ x, r x (comp x)

/-- To hang one of `a` and `b` under the other joins `u` and `v`. -/
def Joins (comp : Nat → Nat) (u v a b : Nat) : Prop :=
  Same comp a u ∧ Same comp b v ∨ Same comp a v ∧ Same comp b u

theorem Joins.swap {u v a b : Nat} (h : Joins comp u v a b) : Joins comp u v b a :=
  h.symm.imp And.symm And.symm

theorem Joins.later {u v a b : Nat} (h : Joins comp u v a b) (hLater : Later comp comp') :
    Joins comp' u v a b :=
  h.imp (And.imp (hLater.same _ _) (hLater.same _ _)) (And.imp (hLater.same _ _) (hLater.same _ _))

theorem Joins.of_same {u v a b c d : Nat} (h : Joins comp u v a b) (hc : Same comp c a)
    (hd : Same comp d b) : Joins comp u v c d :=
  h.imp (And.imp hc.trans hd.trans) (And.imp hc.trans hd.trans)

theorem Joins.same {u v a b : Nat} (h : Joins comp u v a b) (hSame : Same comp a b) :
    Same comp u v := by
  rcases h with ⟨ha, hb⟩ | ⟨ha, hb⟩
  · exact ha.symm.trans (hSame.trans hb)
  · exact hb.symm.trans (hSame.symm.trans ha)

def LinkPhase.Ok (n : Nat) (comp : Nat → Nat) (u v : Nat) : LinkPhase → Prop
  | .checking _ | .idle | .first => True
  | .second p1 => p1 < n ∧ Same comp p1 u
  | .reading high low | .swapping high low => low < high ∧ Joins comp u v high low
  | .again high low => low < high ∧ comp high < high ∧ Joins comp u v high low
  | .grand p low => Joins comp u v p low
  | .lower p1 low => Joins comp u v p1 low

def LinkPhase.Busy : LinkPhase → Prop
  | .checking _ | .idle => False
  | _ => True

def LinkPhase.weight (n : Nat) : LinkPhase → Nat
  | .checking _ => 1
  | .idle => 0
  | .first => 8 * n + 10
  | .second _ => 8 * n + 9
  | .reading high _ => 8 * high + 6
  | .swapping high _ => 8 * high + 5
  | .again high _ => 8 * high + 4
  | .grand p low => 8 * max p low + 8
  | .lower p low => 8 * max p low + 7

def Linker.weight (n : Nat) (s : Linker) : Nat := s.todo.length * (8 * n + 12) + s.phase.weight n

theorem LinkPhase.Ok.later {u v : Nat} {phase : LinkPhase} (h : phase.Ok n comp u v)
    (hLater : Later comp comp') : phase.Ok n comp' u v := by
  cases phase with
  | checking | idle | first => trivial
  | second => exact ⟨h.1, hLater.same _ _ h.2⟩
  | reading | swapping => exact ⟨h.1, h.2.later hLater⟩
  | again high => exact ⟨h.1, (hLater.le high).trans_lt h.2.1, h.2.2.later hLater⟩
  | grand | lower => exact Joins.later h hLater

/-- A turn for `u` with the neighbors `work`, which may be skipped when `u` is labelled with `c`. -/
structure Linker.Ok (n : Nat) (comp : Nat → Nat) (u : Nat) (work : List Nat) (c : Option Nat)
    (s : Linker) : Prop where
  self : s.u = u
  todo : ∀ w ∈ s.todo, w ∈ work
  current : s.phase.Busy → s.v ∈ work
  phase : s.phase.Ok n comp u s.v
  skips : ∀ label, s.phase = .checking label → c = some label
  covers : (∀ w ∈ work, w ∈ s.todo ∨ s.phase.Busy ∧ w = s.v ∨ Same comp u w) ∨
    ∃ label, c = some label ∧ Same comp u label

theorem Linker.Ok.later {u : Nat} {work : List Nat} {c : Option Nat} {s : Linker}
    (h : s.Ok n comp u work c) (hLater : Later comp comp') : s.Ok n comp' u work c where
  self := h.self
  todo := h.todo
  current := h.current
  phase := h.phase.later hLater
  skips := h.skips
  covers := h.covers.imp (fun hAll w hw => (hAll w hw).imp_right (Or.imp_right (hLater.same u w)))
    (Exists.imp fun label => And.imp_right (hLater.same u label))

theorem linkTest_spec {u v a b : Nat} (h : Joins comp u v a b) :
    (linkTest a b).Ok n comp u v ∧
      ((linkTest a b = .idle ∧ Same comp u v) ∨
        (linkTest a b).Busy ∧ (linkTest a b).weight n = 8 * max a b + 6) := by
  rw [linkTest]
  split
  · rename_i hNe
    dsimp only
    split
    · rename_i hGreater
      rw [show a + b - a = b by omega, max_eq_left hGreater.le]
      exact ⟨⟨hGreater, h⟩, Or.inr ⟨trivial, rfl⟩⟩
    · rename_i hNot
      rw [show a + b - b = a by omega, max_eq_right (not_lt.mp hNot)]
      exact ⟨⟨by omega, h.swap⟩, Or.inr ⟨trivial, rfl⟩⟩
  · rename_i hSame
    rw [not_not] at hSame
    exact ⟨trivial, Or.inl ⟨rfl, h.same (hSame ▸ rfl)⟩⟩

theorem LinkPhase.Busy.not_checking {phase : LinkPhase} (h : phase.Busy) (label : Nat) :
    phase ≠ .checking label := by
  rintro rfl
  exact h

section Steps

variable {u : Nat} {work : List Nat} {c : Option Nat} {s s' : Linker}

theorem Linker.Ok.advance (h : s.Ok n comp u work c) (hBusy : s.phase.Busy) {phase : LinkPhase}
    (hPhase : phase.Ok n comp u s.v) (hNext : phase.Busy ∨ phase = .idle ∧ Same comp u s.v) :
    ({ s with phase } : Linker).Ok n comp u work c where
  self := h.self
  todo := h.todo
  current _ := h.current hBusy
  phase := hPhase
  skips label hLabel := by
    rcases hNext with hBusy | ⟨hIdle, _⟩
    · exact absurd hLabel (hBusy.not_checking label)
    · rw [hIdle] at hLabel
      cases hLabel
  covers := by
    refine h.covers.imp_left fun hAll w hw => ?_
    rcases hAll w hw with hTodo | ⟨_, rfl⟩ | hSame
    · exact Or.inl hTodo
    · rcases hNext with hBusy | ⟨_, hSame⟩
      · exact Or.inr (Or.inl ⟨hBusy, rfl⟩)
      · exact Or.inr (Or.inr hSame)
    · exact Or.inr (Or.inr hSame)

structure LinkTurn (n : Nat) (r : Nat → Nat → Prop) (comp : Nat → Nat) (u : Nat) (work : List Nat)
    (c : Option Nat) (s : Linker) (comp' : Nat → Nat) (s' : Linker) : Prop where
  forest : ForestOk r comp'
  later : Later comp comp'
  ok : s'.Ok n comp' u work c
  weight : s'.weight n < s.weight n

theorem Linker.Ok.turn (h : s.Ok n comp u work c) (hForest : ForestOk r comp) (hBusy : s.phase.Busy)
    {phase : LinkPhase} (hPhase : phase.Ok n comp u s.v)
    (hNext : phase.Busy ∨ phase = .idle ∧ Same comp u s.v)
    (hWeight : phase.weight n < s.phase.weight n) :
    LinkTurn n r comp u work c s comp { s with phase } where
  forest := hForest
  later := .refl comp
  ok := h.advance hBusy hPhase hNext
  weight := Nat.add_lt_add_left hWeight _

/-- The next test of the loop has smaller nodes than before. -/
theorem Linker.Ok.test (h : s.Ok n comp u work c) (hForest : ForestOk r comp) (hBusy : s.phase.Busy)
    {a b : Nat} (hJoins : Joins comp u s.v a b) (hWeight : 8 * max a b + 6 < s.phase.weight n) :
    LinkTurn n r comp u work c s comp { s with phase := linkTest a b } := by
  obtain ⟨hOk, ⟨hIdle, hSame⟩ | ⟨hNext, hEq⟩⟩ := linkTest_spec (n := n) hJoins
  · apply h.turn hForest hBusy hOk (Or.inr ⟨hIdle, hSame⟩)
    rw [hIdle]
    exact Nat.zero_lt_of_lt hWeight
  · apply h.turn hForest hBusy hOk (Or.inl hNext)
    rwa [hEq]

theorem ForestOk.hang (hForest : ForestOk r comp) (hr : Equivalence r) {v high low : Nat}
    (huv : r u v) (hLess : low < high) (hJoins : Joins comp u v high low) :
    ForestOk r (Function.update comp high low) where
  descends := descends_update hForest.descends hLess.le
  sound x := by
    have hSame : ∀ {x y}, Same comp x y → r x y := Same.induce hForest.descends hr hForest.sound
    obtain rfl | hNe := eq_or_ne x high
    · rw [Function.update_self]
      rcases hJoins with ⟨ha, hb⟩ | ⟨ha, hb⟩
      · exact hr.trans (hSame ha) (hr.trans huv (hr.symm (hSame hb)))
      · exact hr.trans (hSame ha) (hr.trans (hr.symm huv) (hr.symm (hSame hb)))
    · rw [Function.update_of_ne hNe]
      exact hForest.sound x

theorem linkStep_spec (hForest : ForestOk r comp) (hr : Equivalence r) (hu : u < n)
    (hWork : ∀ w ∈ work, w < n ∧ r u w) (h : s.Ok n comp u work c)
    (hStep : linkStep comp s = some (comp', s')) : LinkTurn n r comp u work c s comp' s' := by
  have hDown := hForest.descends
  obtain ⟨u', todo, v, phase⟩ := s
  obtain rfl : u' = u := h.self
  cases phase with
  | checking label =>
    rw [linkStep] at hStep
    dsimp only at hStep
    split at hStep
    · rename_i hLabel
      cases hStep
      refine ⟨hForest, .refl comp, ⟨rfl, nofun, nofun, trivial, nofun, Or.inr ⟨label, ?_, ?_⟩⟩, ?_⟩
      · exact h.skips label rfl
      · rw [← hLabel]
        exact (same_parent hDown _).symm
      · simp [Linker.weight, LinkPhase.weight]
    · cases hStep
      exact ⟨hForest, .refl comp, ⟨rfl, h.todo, nofun, trivial, nofun, h.covers⟩,
        Nat.add_lt_add_left Nat.zero_lt_one _⟩
  | idle =>
    cases todo with
    | nil => cases hStep
    | cons w todo =>
      cases hStep
      refine ⟨hForest, .refl comp, ⟨rfl, fun x hx => h.todo x (List.mem_cons_of_mem w hx),
        fun _ => h.todo w List.mem_cons_self, trivial, nofun, h.covers.imp_left fun hAll x hx => ?_⟩, ?_⟩
      · rcases hAll x hx with hTodo | ⟨hBusy, _⟩ | hSame
        · rcases List.mem_cons.mp hTodo with rfl | hLater
          · exact Or.inr (Or.inl ⟨trivial, rfl⟩)
          · exact Or.inl hLater
        · exact hBusy.elim
        · exact Or.inr (Or.inr hSame)
      · simp only [Linker.weight, LinkPhase.weight, List.length_cons, Nat.add_one_mul]
        omega
  | first =>
    cases hStep
    have hBound : comp u' < n := (hDown u').trans_lt hu
    exact h.turn hForest trivial ⟨hBound, same_parent hDown u'⟩ (Or.inl trivial) (Nat.lt_succ_self _)
  | second p1 =>
    cases hStep
    obtain ⟨hBound, hSame⟩ := h.phase
    have hv : comp v < n := (hDown v).trans_lt (hWork v (h.current trivial)).1
    refine h.test hForest trivial (Or.inl ⟨hSame, same_parent hDown v⟩) ?_
    have hMax := max_lt hBound hv
    simp only [LinkPhase.weight]
    omega
  | reading high low =>
    obtain ⟨hLess, hJoins⟩ := h.phase
    rw [linkStep] at hStep
    dsimp only at hStep
    split at hStep
    · rename_i hLow
      cases hStep
      have hSame : Same comp high low := hLow ▸ (same_parent hDown high).symm
      exact h.turn hForest trivial trivial (Or.inr ⟨rfl, hJoins.same hSame⟩) (Nat.succ_pos _)
    · split at hStep
      · cases hStep
        exact h.turn hForest trivial ⟨hLess, hJoins⟩ (Or.inl trivial) (Nat.lt_succ_self _)
      · rename_i hMoved
        cases hStep
        have hBelow : comp high < high := lt_of_le_of_ne (hDown high) hMoved
        exact h.turn hForest trivial ⟨hLess, hBelow, hJoins⟩ (Or.inl trivial)
          (Nat.lt_succ_of_lt (Nat.lt_succ_self _))
  | swapping high low =>
    obtain ⟨hLess, hJoins⟩ := h.phase
    rw [linkStep] at hStep
    dsimp only at hStep
    split at hStep
    · rename_i hFixed
      cases hStep
      have hLater := later_hang hDown hFixed hLess
      have hHung := hForest.hang hr (hWork v (h.current trivial)).2 hLess hJoins
      have hJoined := (hJoins.later hLater).same (same_hang hDown hLess)
      exact ⟨hHung, hLater, (h.later hLater).advance trivial trivial (Or.inr ⟨rfl, hJoined⟩),
        Nat.add_lt_add_left (Nat.succ_pos _) _⟩
    · rename_i hMoved
      cases hStep
      have hBelow : comp high < high := lt_of_le_of_ne (hDown high) hMoved
      exact h.turn hForest trivial ⟨hLess, hBelow, hJoins⟩ (Or.inl trivial) (Nat.lt_succ_self _)
  | again high low =>
    cases hStep
    obtain ⟨hLess, hBelow, hJoins⟩ := h.phase
    refine h.turn hForest trivial (hJoins.of_same (same_parent hDown high) rfl) (Or.inl trivial) ?_
    have hMax := max_lt hBelow hLess
    simp only [LinkPhase.weight]
    omega
  | grand p low =>
    cases hStep
    refine h.turn hForest trivial (Joins.of_same h.phase (same_parent hDown p) rfl) (Or.inl trivial) ?_
    have hMax := max_le_max_right low (hDown p)
    simp only [LinkPhase.weight]
    omega
  | lower p1 low =>
    cases hStep
    refine h.test hForest trivial (Joins.of_same h.phase rfl (same_parent hDown low)) ?_
    have hMax := max_le_max_left p1 (hDown low)
    simp only [LinkPhase.weight]
    omega

/-- At its end a turn has joined `u` with its neighbors, or has found it labelled with `c`. -/
theorem Linker.Ok.linked (h : s.Ok n comp u work c) (hNone : linkStep comp s = none) :
    (∀ w ∈ work, Same comp u w) ∨ ∃ label, c = some label ∧ Same comp u label := by
  obtain ⟨u', todo, v, phase⟩ := s
  cases phase with
  | idle =>
    cases todo with
    | nil =>
      refine h.covers.imp_left fun hAll w hw => ?_
      rcases hAll w hw with hTodo | ⟨hBusy, _⟩ | hSame
      · cases hTodo
      · exact hBusy.elim
      · exact hSame
    | cons => cases hNone
  | checking | swapping =>
    rw [linkStep] at hNone
    dsimp only at hNone
    split at hNone <;> cases hNone
  | reading =>
    rw [linkStep] at hNone
    dsimp only at hNone
    split at hNone
    · cases hNone
    · split at hNone <;> cases hNone
  | first | second | again | grand | lower => cases hNone

end Steps

end Links

section Compression

variable {r : Nat → Nat → Prop} {comp comp' : Nat → Nat} {s s' : Compressor}

def CompressPhase.Ok (comp : Nat → Nat) (n : Nat) : CompressPhase → Prop
  | .outer => True
  | .inner p => p = comp n
  | .parent p q => p = comp n ∧ q = comp n
  | .again => comp (comp n) < comp n
  | .grand q => q = comp n ∧ comp q < q
  | .store x => x < comp n ∧ Same comp x n
  | .finished => comp (comp n) = comp n

def CompressPhase.rank : CompressPhase → Nat
  | .outer => 6
  | .inner _ => 5
  | .parent _ _ => 4
  | .again => 3
  | .grand _ => 2
  | .store _ => 1
  | .finished => 0

/-- Nothing but the cell of another turn has changed, and no root. -/
structure Shortens (comp comp' : Nat → Nat) : Prop where
  descends : Descends comp
  descends' : Descends comp'
  le : ∀ x, comp' x ≤ comp x
  root : root comp' = root comp

theorem CompressPhase.Ok.later {n : Nat} {phase : CompressPhase} (h : phase.Ok comp n)
    (hShortens : Shortens comp comp') (hOwn : comp' n = comp n) : phase.Ok comp' n := by
  cases phase with
  | outer => trivial
  | inner => exact Eq.trans h hOwn.symm
  | parent => exact ⟨h.1.trans hOwn.symm, h.2.trans hOwn.symm⟩
  | again =>
    rw [CompressPhase.Ok, hOwn]
    exact (hShortens.le _).trans_lt h
  | grand q => exact ⟨h.1.trans hOwn.symm, (hShortens.le q).trans_lt h.2⟩
  | store =>
    rw [CompressPhase.Ok, hOwn, Same, hShortens.root]
    exact h
  | finished =>
    have hRoot := (root_eq_self hShortens.descends).mpr h
    rw [← hShortens.root] at hRoot
    rw [CompressPhase.Ok, hOwn]
    exact (root_eq_self hShortens.descends').mp hRoot

structure CompressTurn (r : Nat → Nat → Prop) (comp : Nat → Nat) (s : Compressor)
    (comp' : Nat → Nat) (s' : Compressor) : Prop where
  forest : ForestOk r comp'
  shortens : Shortens comp comp'
  others : ∀ m ≠ s.n, comp' m = comp m
  self : s'.n = s.n
  ok : s'.phase.Ok comp' s.n
  weight : 8 * comp' s.n + s'.phase.rank < 8 * comp s.n + s.phase.rank

theorem CompressTurn.of_read (hForest : ForestOk r comp) {phase : CompressPhase}
    (hOk : phase.Ok comp s.n) (hRank : phase.rank < s.phase.rank) :
    CompressTurn r comp s comp { s with phase } where
  forest := hForest
  shortens := ⟨hForest.descends, hForest.descends, fun _ => le_rfl, rfl⟩
  others _ _ := rfl
  self := rfl
  ok := hOk
  weight := Nat.add_lt_add_left hRank _

theorem ForestOk.move (hForest : ForestOk r comp) (hr : Equivalence r) {n x : Nat}
    (hLess : x < comp n) (hSame : Same comp x n) :
    ForestOk r (Function.update comp n x) ∧ Shortens comp (Function.update comp n x) := by
  have hBelow : x < n := hLess.trans_le (hForest.descends n)
  have hDescends := descends_update hForest.descends hBelow.le
  refine ⟨⟨hDescends, fun y => ?_⟩, hForest.descends, hDescends, fun y => ?_,
    root_move hForest.descends hBelow hSame⟩
  · obtain rfl | hNe := eq_or_ne y n
    · rw [Function.update_self]
      exact hr.symm (hSame.induce hForest.descends hr hForest.sound)
    · rw [Function.update_of_ne hNe]
      exact hForest.sound y
  · obtain rfl | hNe := eq_or_ne y n
    · rw [Function.update_self]
      exact hLess.le
    · rw [Function.update_of_ne hNe]

theorem compressStep_spec (hForest : ForestOk r comp) (hr : Equivalence r) (h : s.phase.Ok comp s.n)
    (hStep : compressStep comp s = some (comp', s')) : CompressTurn r comp s comp' s' := by
  have hDown := hForest.descends
  obtain ⟨n, phase⟩ := s
  cases phase with
  | outer =>
    cases hStep
    exact .of_read hForest rfl (Nat.lt_succ_self _)
  | inner p =>
    cases hStep
    exact .of_read hForest ⟨h, rfl⟩ (Nat.lt_succ_self _)
  | parent p q =>
    cases hStep
    obtain ⟨rfl, rfl⟩ : p = comp n ∧ q = comp n := h
    split
    · rename_i hMoved
      exact .of_read hForest (lt_of_le_of_ne (hDown _) (Ne.symm hMoved)) (Nat.lt_succ_self _)
    · rename_i hFixed
      exact .of_read hForest (not_not.mp hFixed).symm (Nat.succ_pos _)
  | again =>
    cases hStep
    exact .of_read hForest ⟨rfl, h⟩ (Nat.lt_succ_self _)
  | grand q =>
    cases hStep
    obtain ⟨rfl, hLess⟩ : q = comp n ∧ comp q < q := h
    have hSame : Same comp (comp (comp n)) n := (same_parent hDown _).trans (same_parent hDown n)
    exact .of_read hForest ⟨hLess, hSame⟩ (Nat.lt_succ_self _)
  | store x =>
    cases hStep
    obtain ⟨hLess, hSame⟩ : x < comp n ∧ Same comp x n := h
    obtain ⟨hMoved, hShortens⟩ := hForest.move hr hLess hSame
    refine ⟨hMoved, hShortens, fun m hm => Function.update_of_ne hm _ _, rfl, trivial, ?_⟩
    simp only [Function.update_self, CompressPhase.rank]
    omega
  | finished => cases hStep

theorem compressed_of_none (h : s.phase.Ok comp s.n) (hNone : compressStep comp s = none) :
    comp (comp s.n) = comp s.n := by
  obtain ⟨n, phase⟩ := s
  cases phase with
  | finished => exact h
  | outer | inner | parent | again | grand | store => cases hNone

end Compression

end Trident.Gapbs
