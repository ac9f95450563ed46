import Trident.Graph500.Offsets
import Trident.Lib.Barriers

/-! # The prefix sum, one memory access at a time

Between two barriers the threads of `prefix_sum` run in any order. Each sums its own
slice into its own cell of `buf`, one of them adds the cells up, and each goes over its
slice again.

The sums are in `Nat`: none is above `2 * nedge + MINVECT_SIZE * nv`, the sum of all padded
degrees, and with the edges and the `2 * nv + 2` offsets in memory an `int64_t` holds it.
-/

namespace Trident.Graph500

open Relation Transition Barriers

/-- What the threads share; `single` tells that one of them has entered the single construct. -/
structure PrefixMemory where
  xoff : Nat → Nat
  buf : Nat → Nat
  single : Bool

/-- Where a thread is in `prefix_sum`, with its own variables. -/
inductive PrefixPhase where
  | enter
  | summing (k : Nat)
  | adding (k value : Nat)
  | firstBarrier
  | atSingle
  | inSingle (k : Nat)
  | singleBarrier
  | scanning (k t1 : Nat)
  | moving (k t1 tmp : Nat)
  | lastBarrier
  | returned (accum : Nat)

/-- The barriers are the stages 1, 3 (at the end of the single construct) and 5. -/
def PrefixPhase.stage : PrefixPhase → Nat
  | enter | summing _ | adding _ _ => 0
  | firstBarrier => 1
  | atSingle | inSingle _ => 2
  | singleBarrier => 3
  | scanning _ _ | moving _ _ _ => 4
  | lastBarrier => 5
  | returned _ => 6

abbrev PrefixTeam (nt : Nat) := PrefixMemory × (Fin nt → PrefixPhase)

/-- One access to the shared memory, or a step past a barrier. -/
inductive PrefixTurn (nv nt : Nat) (reached : Nat → Prop) (tid : Fin nt) :
    PrefixMemory × PrefixPhase → PrefixMemory × PrefixPhase → Prop
  | clear {m} : PrefixTurn nv nt reached tid (m, .enter)
      ({ m with buf := Function.update m.buf tid 0 }, .summing (sliceBegin nv nt tid))
  | load {m k} (hk : k < sliceBegin nv nt (tid + 1)) :
      PrefixTurn nv nt reached tid (m, .summing k) (m, .adding k (m.xoff k))
  | add {m k value} : PrefixTurn nv nt reached tid (m, .adding k value)
      ({ m with buf := Function.update m.buf tid (m.buf tid + value) }, .summing (k + 1))
  | summed {m k} (hk : ¬ k < sliceBegin nv nt (tid + 1)) :
      PrefixTurn nv nt reached tid (m, .summing k) (m, .firstBarrier)
  | passFirst {m} (hAll : reached 1) : PrefixTurn nv nt reached tid (m, .firstBarrier) (m, .atSingle)
  | enterSingle {m} (hOpen : m.single = false) :
      PrefixTurn nv nt reached tid (m, .atSingle) ({ m with single := true }, .inSingle 1)
  | skipSingle {m} (hTaken : m.single = true) :
      PrefixTurn nv nt reached tid (m, .atSingle) (m, .singleBarrier)
  | addPrevious {m k} (hk : k < nt) : PrefixTurn nv nt reached tid (m, .inSingle k)
      ({ m with buf := Function.update m.buf k (m.buf k + m.buf (k - 1)) }, .inSingle (k + 1))
  | leaveSingle {m k} (hk : ¬ k < nt) :
      PrefixTurn nv nt reached tid (m, .inSingle k) (m, .singleBarrier)
  | passSingle {m} (hAll : reached 3) : PrefixTurn nv nt reached tid (m, .singleBarrier)
      (m, .scanning (sliceBegin nv nt tid) (if tid.val = 0 then 0 else m.buf (tid - 1)))
  | read {m k t1} (hk : k < sliceBegin nv nt (tid + 1)) :
      PrefixTurn nv nt reached tid (m, .scanning k t1) (m, .moving k t1 (m.xoff k))
  | write {m k t1 tmp} : PrefixTurn nv nt reached tid (m, .moving k t1 tmp)
      ({ m with xoff := Function.update m.xoff k t1 }, .scanning (k + 1) (t1 + tmp))
  | scanned {m k t1} (hk : ¬ k < sliceBegin nv nt (tid + 1)) :
      PrefixTurn nv nt reached tid (m, .scanning k t1) (m, .lastBarrier)
  | passLast {m} (hAll : reached 5) :
      PrefixTurn nv nt reached tid (m, .lastBarrier) (m, .returned (m.buf (nt - 1)))

def PrefixStep (nv nt : Nat) : PrefixTeam nt → PrefixTeam nt → Prop :=
  TeamStep PrefixPhase.stage (PrefixTurn nv nt)

/-- Every thread at the call, with whatever `buf` holds. -/
def prefixStart (nt : Nat) (xoff buf : Nat → Nat) : PrefixTeam nt :=
  (⟨xoff, buf, false⟩, fun _ => .enter)

/-! ## The slices -/

section Slices

variable {nv nt : Nat}

theorem sliceBegin_le_of_le {i j : Nat} (h : i ≤ j) : sliceBegin nv nt i ≤ sliceBegin nv nt j := by
  induction h with
  | refl => exact Nat.le_refl _
  | step _ ih => exact ih.trans (sliceBegin_mono _)

theorem sliceEnd_le (tid : Fin nt) : sliceBegin nv nt (tid + 1) ≤ nv :=
  (sliceBegin_le_of_le tid.isLt).trans (sliceBegin_last tid.pos).le

theorem slice_unique {i j c : Nat} (hi : sliceBegin nv nt i ≤ c ∧ c < sliceBegin nv nt (i + 1))
    (hj : sliceBegin nv nt j ≤ c ∧ c < sliceBegin nv nt (j + 1)) : i = j := by
  rcases Nat.lt_trichotomy i j with h | h | h
  · have hLe : sliceBegin nv nt (i + 1) ≤ sliceBegin nv nt j := sliceBegin_le_of_le h
    omega
  · exact h
  · have hLe : sliceBegin nv nt (j + 1) ≤ sliceBegin nv nt i := sliceBegin_le_of_le h
    omega

theorem exists_slice {n c : Nat} (hc : c < sliceBegin nv nt n) :
    ∃ i < n, sliceBegin nv nt i ≤ c ∧ c < sliceBegin nv nt (i + 1) := by
  induction n with
  | zero =>
    rw [sliceBegin_zero] at hc
    exact absurd hc (Nat.not_lt_zero c)
  | succ n ih =>
    rcases Nat.lt_or_ge c (sliceBegin nv nt n) with h | h
    · obtain ⟨i, hi, hSlice⟩ := ih h
      exact ⟨i, hi.trans (Nat.lt_succ_self n), hSlice⟩
    · exact ⟨n, Nat.lt_succ_self n, h, hc⟩

/-- The slices are a partition of the cells below `nv`. -/
theorem existsUnique_slice (hnt : 0 < nt) (c : Nat) :
    c < nv ↔ ∃! tid : Fin nt, sliceBegin nv nt tid ≤ c ∧ c < sliceBegin nv nt (tid + 1) := by
  constructor
  · intro hc
    obtain ⟨i, hi, hSlice⟩ := exists_slice (n := nt) (hc.trans_eq (sliceBegin_last hnt).symm)
    exact ⟨⟨i, hi⟩, hSlice, fun other hOther => Fin.ext (slice_unique hOther hSlice)⟩
  · rintro ⟨tid, ⟨-, hEnd⟩, -⟩
    exact hEnd.trans_le (sliceEnd_le tid)

end Slices

/-! ## What holds between two accesses -/

section Invariant

variable {nv nt : Nat} {xoff : Nat → Nat}

/-- How far a thread has gone over its slice again. -/
def PrefixPhase.front (nv nt tid : Nat) : PrefixPhase → Nat
  | scanning k _ | moving k _ _ => k
  | lastBarrier | returned _ => sliceBegin nv nt (tid + 1)
  | _ => sliceBegin nv nt tid

/-- What a thread knows, of its own cell of `buf` and of its variables. -/
def PrefixPhase.Holds (nv nt : Nat) (xoff buf : Nat → Nat) (tid : Nat) : PrefixPhase → Prop
  | summing k => sliceBegin nv nt tid ≤ k ∧ k ≤ sliceBegin nv nt (tid + 1) ∧
      buf tid = ∑ j ∈ Finset.Ico (sliceBegin nv nt tid) k, xoff j
  | adding k value => sliceBegin nv nt tid ≤ k ∧ k < sliceBegin nv nt (tid + 1) ∧
      buf tid = ∑ j ∈ Finset.Ico (sliceBegin nv nt tid) k, xoff j ∧ value = xoff k
  | scanning k t1 => sliceBegin nv nt tid ≤ k ∧ k ≤ sliceBegin nv nt (tid + 1) ∧
      t1 = ∑ j ∈ Finset.range k, xoff j
  | moving k t1 tmp => sliceBegin nv nt tid ≤ k ∧ k < sliceBegin nv nt (tid + 1) ∧
      t1 = ∑ j ∈ Finset.range k, xoff j ∧ tmp = xoff k
  | returned accum => accum = ∑ j ∈ Finset.range nv, xoff j
  | _ => True

/-- The slice of a thread that has gone over it up to `front`. -/
def SliceAt (nv nt : Nat) (xoff cells : Nat → Nat) (tid front : Nat) : Prop :=
  ∀ c, sliceBegin nv nt tid ≤ c → c < sliceBegin nv nt (tid + 1) →
    cells c = if c < front then ∑ j ∈ Finset.range c, xoff j else xoff c

/-- What the loop of the single construct has done: the cells of `buf` below `added` have
been added up. -/
structure SingleAt (nt added : Nat) (single : Bool) (threads : Fin nt → PrefixPhase) : Prop where
  pos : 1 ≤ added
  closed : single = false → added = 1 ∧ ∀ tid, (threads tid).stage ≤ 2 ∧ ∀ k, threads tid ≠ .inSingle k
  inside : ∀ tid k, threads tid = .inSingle k → added = k ∧
    ∀ other, other ≠ tid → ∀ j, threads other ≠ .inSingle j
  entered : single = true → ∃ tid, 2 ≤ (threads tid).stage
  done : single = true → (∀ tid k, threads tid ≠ .inSingle k) → nt ≤ added

/-- The cells of `buf` of the threads that have summed their slices. -/
def SumsAt (nv nt : Nat) (xoff : Nat → Nat) (added : Nat) (buf : Nat → Nat)
    (threads : Fin nt → PrefixPhase) : Prop :=
  ∀ tid : Fin nt, 1 ≤ (threads tid).stage → buf tid =
    if tid < added then ∑ j ∈ Finset.range (sliceBegin nv nt (tid + 1)), xoff j
    else sliceSums nv nt xoff tid

structure PrefixAt (nv nt : Nat) (xoff : Nat → Nat) (added : Nat) (s : PrefixTeam nt) : Prop where
  first : Together PrefixPhase.stage s.2 1
  second : Together PrefixPhase.stage s.2 3
  single : SingleAt nt added s.1.single s.2
  own : ∀ tid, (s.2 tid).Holds nv nt xoff s.1.buf tid
  cells : ∀ tid : Fin nt, SliceAt nv nt xoff s.1.xoff tid ((s.2 tid).front nv nt tid)
  beyond : ∀ c, nv ≤ c → s.1.xoff c = xoff c
  sums : SumsAt nv nt xoff added s.1.buf s.2

theorem prefixAt_start (xoff buf : Nat → Nat) :
    PrefixAt nv nt xoff 1 (prefixStart nt xoff buf) where
  first := fun _ h => absurd h (Nat.not_lt_zero 1)
  second := fun _ h => absurd h (Nat.not_lt_zero 3)
  single := {
    pos := Nat.le_refl 1
    closed := fun _ => ⟨rfl, fun _ => ⟨Nat.zero_le 2, fun _ h => nomatch h⟩⟩
    inside := fun _ _ h => nomatch h
    entered := fun h => nomatch h
    done := fun h => nomatch h }
  own := fun _ => trivial
  cells := fun _ _ hc _ => (if_neg (Nat.not_lt.mpr hc)).symm
  beyond := fun _ _ => rfl
  sums := fun _ h => absurd h (Nat.not_succ_le_zero 0)

theorem keeps_prefixTurn {b : Nat} (hb : b = 1 ∨ b = 3 ∨ b = 5) :
    Keeps PrefixPhase.stage (PrefixTurn nv nt) b := by
  intro reached tid a a' hTurn
  cases hTurn with
  | passFirst hAll =>
    refine ⟨Nat.le_succ _, fun h h' => ?_⟩
    dsimp only [PrefixPhase.stage] at h h'
    obtain rfl : b = 1 := by omega
    exact hAll
  | passSingle hAll =>
    refine ⟨Nat.le_succ _, fun h h' => ?_⟩
    dsimp only [PrefixPhase.stage] at h h'
    obtain rfl : b = 3 := by omega
    exact hAll
  | passLast hAll =>
    refine ⟨Nat.le_succ _, fun h h' => ?_⟩
    dsimp only [PrefixPhase.stage] at h h'
    obtain rfl : b = 5 := by omega
    exact hAll
  | _ =>
    refine ⟨by simp [PrefixPhase.stage], fun h h' => ?_⟩
    dsimp only [PrefixPhase.stage] at h h'
    omega

section Turn

variable {reached : Nat → Prop} {tid : Fin nt} {m m' : PrefixMemory} {phase next : PrefixPhase}

/-- A thread writes only the cells of its own slice. -/
theorem PrefixTurn.xoff_eq (hTurn : PrefixTurn nv nt reached tid (m, phase) (m', next))
    (hOwn : phase.Holds nv nt xoff m.buf tid) {c : Nat}
    (hc : ¬ (sliceBegin nv nt tid ≤ c ∧ c < sliceBegin nv nt (tid + 1))) : m'.xoff c = m.xoff c := by
  cases hTurn with
  | write =>
    obtain ⟨hLow, hHigh, -, -⟩ := hOwn
    exact Function.update_of_ne (by rintro rfl; exact hc ⟨hLow, hHigh⟩) _ _
  | _ => rfl

/-- Only the loop of the single construct writes the cells of others. -/
theorem PrefixTurn.buf_eq (hTurn : PrefixTurn nv nt reached tid (m, phase) (m', next)) {c : Nat}
    (hc : c ≠ tid) (hPhase : ∀ k, phase ≠ .inSingle k) : m'.buf c = m.buf c := by
  cases hTurn with
  | clear | add => exact Function.update_of_ne hc _ _
  | addPrevious => exact absurd rfl (hPhase _)
  | _ => rfl

theorem PrefixTurn.slice (hTurn : PrefixTurn nv nt reached tid (m, phase) (m', next))
    (hOwn : phase.Holds nv nt xoff m.buf tid)
    (hSlice : SliceAt nv nt xoff m.xoff tid (phase.front nv nt tid)) :
    SliceAt nv nt xoff m'.xoff tid (next.front nv nt tid) := by
  cases hTurn with
  | @write m k t1 tmp =>
    obtain ⟨-, -, hSum, -⟩ := hOwn
    intro c hLow hHigh
    change Function.update m.xoff k t1 c =
      if c < k + 1 then ∑ j ∈ Finset.range c, xoff j else xoff c
    obtain rfl | hne := eq_or_ne c k
    · rw [Function.update_self, if_pos (Nat.lt_succ_self c), hSum]
    · have hOld : m.xoff c = if c < k then ∑ j ∈ Finset.range c, xoff j else xoff c :=
        hSlice c hLow hHigh
      have hIff : c < k + 1 ↔ c < k := by omega
      rw [Function.update_of_ne hne, hOld]
      simp only [hIff]
  | @scanned m k t1 hk =>
    obtain ⟨-, hEnd, -⟩ := hOwn
    have hFront : k = sliceBegin nv nt (tid + 1) := by omega
    dsimp only [PrefixPhase.front] at hSlice ⊢
    rw [← hFront]
    exact hSlice
  | _ => exact hSlice

/-- What the thread reads: cells that it has not gone over, and sums once all are added up. -/
theorem PrefixTurn.own (hTurn : PrefixTurn nv nt reached tid (m, phase) (m', next))
    (hOwn : phase.Holds nv nt xoff m.buf tid)
    (hSlice : SliceAt nv nt xoff m.xoff tid (phase.front nv nt tid))
    (hAdded : 3 ≤ phase.stage → reached 3 ∨ reached 5 → ∀ j : Fin nt,
      m.buf j = ∑ c ∈ Finset.range (sliceBegin nv nt (j + 1)), xoff c) :
    next.Holds nv nt xoff m'.buf tid := by
  cases hTurn with
  | clear =>
    refine ⟨Nat.le_refl _, sliceBegin_mono _, ?_⟩
    rw [Finset.Ico_self]
    exact Function.update_self ..
  | @load m k hk =>
    obtain ⟨hLow, -, hSum⟩ := hOwn
    refine ⟨hLow, hk, hSum, ?_⟩
    rw [hSlice k hLow hk]
    exact if_neg (Nat.not_lt.mpr hLow)
  | @add m k value =>
    obtain ⟨hLow, hHigh, hSum, rfl⟩ := hOwn
    refine ⟨hLow.trans (Nat.le_succ k), hHigh, ?_⟩
    rw [Finset.sum_Ico_succ_top hLow, ← hSum]
    exact Function.update_self ..
  | passSingle hAll =>
    have hBuf := hAdded (Nat.le_refl 3) (.inl hAll)
    refine ⟨Nat.le_refl _, sliceBegin_mono _, ?_⟩
    split
    · next h0 => rw [h0, sliceBegin_zero, Finset.sum_range_zero]
    · next h0 =>
      have hPrevious := hBuf ⟨tid - 1, by omega⟩
      dsimp only at hPrevious
      rw [hPrevious, Nat.sub_add_cancel (Nat.one_le_iff_ne_zero.mpr h0)]
  | @read m k t1 hk =>
    obtain ⟨hLow, -, hSum⟩ := hOwn
    refine ⟨hLow, hk, hSum, ?_⟩
    rw [hSlice k hLow hk]
    exact if_neg (Nat.lt_irrefl k)
  | @write m k t1 tmp =>
    obtain ⟨hLow, hHigh, hSum, rfl⟩ := hOwn
    refine ⟨hLow.trans (Nat.le_succ k), hHigh, ?_⟩
    rw [Finset.sum_range_succ, ← hSum]
  | passLast hAll =>
    have hPos : 0 < nt := tid.pos
    have hLast := hAdded (by decide) (.inr hAll) ⟨nt - 1, by omega⟩
    dsimp only at hLast
    rw [Nat.sub_add_cancel hPos, sliceBegin_last hPos] at hLast
    exact hLast
  | _ => trivial

end Turn

section Single

variable {reached : Nat → Prop} {added : Nat} {single : Bool} {threads : Fin nt → PrefixPhase}
variable {tid : Fin nt} {next : PrefixPhase}

theorem entered_update {b : Nat} (hStage : (threads tid).stage ≤ next.stage)
    (h : ∃ j, b ≤ (threads j).stage) : ∃ j, b ≤ (Function.update threads tid next j).stage := by
  obtain ⟨j, hj⟩ := h
  refine ⟨j, ?_⟩
  obtain rfl | hne := eq_or_ne j tid
  · rw [Function.update_self]
    exact hj.trans hStage
  · rw [Function.update_of_ne hne]
    exact hj

/-- A turn outside the single construct. -/
theorem SingleAt.keep (h : SingleAt nt added single threads)
    (hPhase : ∀ k, threads tid ≠ .inSingle k) (hNext : ∀ k, next ≠ .inSingle k)
    (hStage : (threads tid).stage ≤ next.stage)
    (hClosed : single = false → (threads tid).stage ≤ 2 → next.stage ≤ 2) :
    SingleAt nt added single (Function.update threads tid next) := by
  have hBack : ∀ j k, Function.update threads tid next j = .inSingle k → threads j = .inSingle k := by
    intro j k hj
    obtain rfl | hne := eq_or_ne j tid
    · rw [Function.update_self] at hj
      exact absurd hj (hNext k)
    · rwa [Function.update_of_ne hne] at hj
  refine ⟨h.pos, ?_, ?_, fun hSingle => entered_update hStage (h.entered hSingle), ?_⟩
  · intro hSingle
    obtain ⟨hAdded, hEarly⟩ := h.closed hSingle
    refine ⟨hAdded, fun j => ⟨?_, fun k hj => (hEarly j).2 k (hBack j k hj)⟩⟩
    obtain rfl | hne := eq_or_ne j tid
    · rw [Function.update_self]
      exact hClosed hSingle (hEarly j).1
    · rw [Function.update_of_ne hne]
      exact (hEarly j).1
  · intro j k hj
    obtain ⟨hAdded, hOthers⟩ := h.inside j k (hBack j k hj)
    exact ⟨hAdded, fun other hOther k' hk' => hOthers other hOther k' (hBack other k' hk')⟩
  · intro hSingle hOutside
    refine h.done hSingle fun j k hj => ?_
    have hne : j ≠ tid := by
      rintro rfl
      exact hPhase k hj
    exact hOutside j k (by rwa [Function.update_of_ne hne])

/-- A turn that leaves the thread the only one in the single construct. -/
theorem SingleAt.enter {k : Nat} (hk : 1 ≤ k)
    (hOthers : ∀ other, other ≠ tid → ∀ j, threads other ≠ .inSingle j) :
    SingleAt nt k true (Function.update threads tid (.inSingle k)) := by
  have hSelf : Function.update threads tid (.inSingle k) tid = .inSingle k := Function.update_self ..
  refine ⟨hk, ?_, ?_, fun _ => ⟨tid, by rw [hSelf]; exact Nat.le_refl 2⟩, ?_⟩
  · intro h
    cases h
  · intro j k' hj
    obtain rfl | hne := eq_or_ne j tid
    · rw [hSelf] at hj
      cases hj
      refine ⟨rfl, fun other hOther k' hk' => hOthers other hOther k' ?_⟩
      rwa [Function.update_of_ne hOther] at hk'
    · rw [Function.update_of_ne hne] at hj
      exact absurd hj (hOthers j hne k')
  · intro _ hOutside
    exact absurd hSelf (hOutside tid k)

theorem SingleAt.leave {k : Nat} (h : SingleAt nt added single threads)
    (hPhase : threads tid = .inSingle k) (hk : ¬ k < nt) :
    SingleAt nt added single (Function.update threads tid .singleBarrier) := by
  obtain ⟨rfl, hOthers⟩ := h.inside tid k hPhase
  have hSelf : Function.update threads tid .singleBarrier tid = .singleBarrier :=
    Function.update_self ..
  have hNobody : ∀ j k', Function.update threads tid .singleBarrier j ≠ .inSingle k' := by
    intro j k' hj
    obtain rfl | hne := eq_or_ne j tid
    · rw [hSelf] at hj
      exact nomatch hj
    · rw [Function.update_of_ne hne] at hj
      exact hOthers j hne k' hj
  refine ⟨h.pos, ?_, fun j k' hj => absurd hj (hNobody j k'),
    fun _ => ⟨tid, by rw [hSelf]; decide⟩, fun _ _ => Nat.le_of_not_lt hk⟩
  intro hSingle
  exact absurd hPhase ((h.closed hSingle).2 tid |>.2 added)

end Single

section Step

variable {added : Nat} {s t : PrefixTeam nt}

/-- Past the single construct the cells of `buf` are added up. -/
theorem PrefixAt.buf_eq (h : PrefixAt nv nt xoff added s) (hAll : Reached PrefixPhase.stage s.2 3)
    (j : Fin nt) : s.1.buf j = ∑ c ∈ Finset.range (sliceBegin nv nt (j + 1)), xoff c := by
  have hSingle : s.1.single = true := by
    by_contra hOpen
    have hEarly := ((h.single.closed (by simpa using hOpen)).2 j).1
    exact absurd (hAll j) (by omega)
  have hNobody : ∀ tid k, s.2 tid ≠ .inSingle k := by
    intro tid k htid
    have hStage := hAll tid
    rw [htid] at hStage
    exact absurd hStage (Nat.not_succ_le_self 2)
  have hDone := h.single.done hSingle hNobody
  rw [h.sums j (Nat.le_trans (by decide) (hAll j)), if_pos (j.isLt.trans_le hDone)]

/-- The thread that leaves its first loop finds nothing added up yet. -/
theorem PrefixAt.added_eq_one (h : PrefixAt nv nt xoff added s) {tid : Fin nt}
    (hStage : (s.2 tid).stage = 0) : added = 1 := by
  cases hSingle : s.1.single with
  | false => exact (h.single.closed hSingle).1
  | true =>
    obtain ⟨other, hOther⟩ := h.single.entered hSingle
    have hAll := h.first other hOther tid
    omega

theorem PrefixPhase.Holds.congr {phase : PrefixPhase} {buf buf' : Nat → Nat} {tid : Nat}
    (h : phase.Holds nv nt xoff buf tid) (hBuf : phase.stage = 0 → buf' tid = buf tid) :
    phase.Holds nv nt xoff buf' tid := by
  cases phase with
  | summing k | adding k value =>
    rw [PrefixPhase.Holds, hBuf rfl]
    exact h
  | _ => exact h

theorem SumsAt.update {buf buf' : Nat → Nat} {threads : Fin nt → PrefixPhase} {tid : Fin nt}
    {next : PrefixPhase} (h : SumsAt nv nt xoff added buf threads)
    (hOthers : ∀ j, j ≠ tid.val → buf' j = buf j)
    (hSelf : 1 ≤ next.stage → buf' tid =
      if tid < added then ∑ j ∈ Finset.range (sliceBegin nv nt (tid + 1)), xoff j
      else sliceSums nv nt xoff tid) :
    SumsAt nv nt xoff added buf' (Function.update threads tid next) := by
  intro j hj
  obtain rfl | hne := eq_or_ne j tid
  · rw [Function.update_self] at hj
    exact hSelf hj
  · rw [Function.update_of_ne hne] at hj
    rw [hOthers j (fun hval => hne (Fin.ext hval))]
    exact h j hj

theorem range_add_sliceSums {tid : Nat} :
    ∑ j ∈ Finset.range (sliceBegin nv nt tid), xoff j + sliceSums nv nt xoff tid =
      ∑ j ∈ Finset.range (sliceBegin nv nt (tid + 1)), xoff j :=
  Finset.sum_range_add_sum_Ico xoff (sliceBegin_mono tid)

/-- One turn of the loop of the single construct, which runs when all have summed. -/
theorem SumsAt.addPrevious {buf : Nat → Nat} {threads : Fin nt → PrefixPhase} {k : Nat}
    (h : SumsAt nv nt xoff k buf threads) (hAll : Reached PrefixPhase.stage threads 1)
    (hk : 1 ≤ k) (hlt : k < nt) (threads' : Fin nt → PrefixPhase) :
    SumsAt nv nt xoff (k + 1) (Function.update buf k (buf k + buf (k - 1))) threads' := by
  intro j _
  have hSums := h j (hAll j)
  obtain hEq | hne := eq_or_ne j.val k
  · have hPrevious := h ⟨k - 1, by omega⟩ (hAll _)
    dsimp only at hPrevious
    rw [if_pos (by omega), Nat.sub_add_cancel hk] at hPrevious
    rw [if_neg (by omega), hEq] at hSums
    rw [hEq, Function.update_self, if_pos (Nat.lt_succ_self k), hSums, hPrevious, Nat.add_comm]
    exact range_add_sliceSums
  · rw [Function.update_of_ne hne, hSums]
    have hIff : j.val < k + 1 ↔ j.val < k := by omega
    simp only [hIff]

/-- The sum of a slice, when none of the other sums has been added to it. -/
theorem sliceSums_of_one {tid : Nat} : sliceSums nv nt xoff tid =
    if tid < 1 then ∑ j ∈ Finset.range (sliceBegin nv nt (tid + 1)), xoff j
    else sliceSums nv nt xoff tid := by
  split
  · next h =>
    obtain rfl := Nat.lt_one_iff.mp h
    rw [← range_add_sliceSums, sliceBegin_zero, Finset.sum_range_zero, Nat.zero_add]
  · rfl

theorem PrefixTurn.single_sums {reached : Nat → Prop} {tid : Fin nt} {m m' : PrefixMemory}
    {threads : Fin nt → PrefixPhase} {phase next : PrefixPhase}
    (hTurn : PrefixTurn nv nt reached tid (m, phase) (m', next)) (hPhase : threads tid = phase)
    (h : PrefixAt nv nt xoff added (m, threads)) :
    ∃ added', SingleAt nt added' m'.single (Function.update threads tid next) ∧
      SumsAt nv nt xoff added' m'.buf (Function.update threads tid next) := by
  have hKeep := @SingleAt.keep _ _ _ _ tid next h.single
  have hUpdate := @SumsAt.update _ _ _ _ _ m'.buf _ tid next h.sums
  have hSelf := h.sums tid
  dsimp only at hKeep hUpdate hSelf
  rw [hPhase] at hKeep hSelf
  have hOthers : ∀ j, j ≠ tid.val → (∀ k, phase ≠ .inSingle k) → m'.buf j = m.buf j :=
    fun j hj hOutside => hTurn.buf_eq hj hOutside
  cases hTurn with
  | clear | load | add =>
    exact ⟨added, hKeep nofun nofun (Nat.le_refl 0) (fun _ _ => Nat.zero_le 2),
      hUpdate (fun j hj => hOthers j hj nofun) fun hStage => absurd hStage (Nat.not_succ_le_zero 0)⟩
  | @summed _ k hk =>
    refine ⟨added, hKeep nofun nofun (Nat.le_succ 0) (fun _ _ => Nat.le_succ 1),
      hUpdate (fun _ _ => rfl) fun _ => ?_⟩
    have hOwn := h.own tid
    have hOne : (threads tid).stage = 0 → added = 1 := h.added_eq_one
    dsimp only at hOwn hOne
    rw [hPhase] at hOwn hOne
    obtain ⟨-, hEnd, hSum⟩ := hOwn
    have hk' : k = sliceBegin nv nt (tid + 1) := by omega
    rw [hOne rfl, ← sliceSums_of_one, hSum, hk']
    rfl
  | passFirst =>
    exact ⟨added, hKeep nofun nofun (Nat.le_succ 1) (fun _ _ => Nat.le_refl 2),
      hUpdate (fun _ _ => rfl) fun _ => hSelf (Nat.le_refl 1)⟩
  | enterSingle hOpen =>
    obtain ⟨rfl, hEarly⟩ := h.single.closed hOpen
    exact ⟨1, .enter (Nat.le_refl 1) fun other _ => (hEarly other).2,
      hUpdate (fun _ _ => rfl) fun _ => hSelf (Nat.le_succ 1)⟩
  | skipSingle hTaken =>
    refine ⟨added, hKeep nofun nofun (Nat.le_succ 2) (fun hOpen _ => ?_),
      hUpdate (fun _ _ => rfl) fun _ => hSelf (Nat.le_succ 1)⟩
    exact absurd (hTaken.symm.trans hOpen) Bool.noConfusion
  | @addPrevious _ k hk =>
    obtain ⟨rfl, hOutside⟩ := h.single.inside tid k hPhase
    have hTaken : m.single = true := by
      by_contra hOpen
      exact ((h.single.closed (by simpa using hOpen)).2 tid).2 added hPhase
    have hAll : Reached PrefixPhase.stage threads 1 := h.first tid (by
      dsimp only
      rw [hPhase]
      exact Nat.le_refl 2)
    rw [hTaken]
    exact ⟨added + 1, .enter (Nat.le_add_left 1 added) hOutside,
      h.sums.addPrevious hAll h.single.pos hk _⟩
  | leaveSingle hk =>
    exact ⟨added, h.single.leave hPhase hk, hUpdate (fun _ _ => rfl) fun _ => hSelf (Nat.le_succ 1)⟩
  | passSingle | read | write | scanned | passLast =>
    refine ⟨added, hKeep nofun nofun (by simp [PrefixPhase.stage]) (fun _ hEarly => ?_),
      hUpdate (fun _ _ => rfl) fun _ => hSelf (by simp [PrefixPhase.stage])⟩
    exact absurd hEarly (by simp [PrefixPhase.stage])

theorem PrefixAt.step (h : PrefixAt nv nt xoff added s) (hStep : PrefixStep nv nt s t) :
    ∃ added', PrefixAt nv nt xoff added' t := by
  have hFirst := h.first.step (keeps_prefixTurn (.inl rfl)) hStep
  have hSecond := h.second.step (keeps_prefixTurn (.inr (.inl rfl))) hStep
  obtain ⟨m, threads⟩ := s
  obtain ⟨m', threads'⟩ := t
  obtain ⟨tid, next, hTurn, hThreads⟩ := hStep
  dsimp only at hTurn hThreads hFirst hSecond
  subst hThreads
  obtain ⟨added', hSingle, hSums⟩ := hTurn.single_sums rfl h
  have hOwn := h.own tid
  have hSlice := h.cells tid
  have hNextOwn := hTurn.own hOwn hSlice fun _ hReached j => by
    refine h.buf_eq (hReached.elim id fun hLast other => ?_) j
    exact Nat.le_trans (by decide) (hLast other)
  -- what the thread does to the cells of another one
  have hXoff : ∀ c, ¬ (sliceBegin nv nt tid ≤ c ∧ c < sliceBegin nv nt (tid + 1)) →
      m'.xoff c = m.xoff c := fun c hc => hTurn.xoff_eq hOwn hc
  have hBuf : ∀ other, other ≠ tid → (threads other).stage = 0 → m'.buf other = m.buf other := by
    intro other hne hStage
    refine hTurn.buf_eq (fun hval => hne (Fin.ext hval)) fun k hk => ?_
    have hAll := h.first tid (by
      dsimp only
      rw [hk]
      exact Nat.le_refl 2) other
    dsimp only at hAll
    omega
  refine ⟨added', hFirst, hSecond, hSingle, ?_, ?_, ?_, hSums⟩
  · intro other
    dsimp only
    obtain rfl | hne := eq_or_ne other tid
    · rw [Function.update_self]
      exact hNextOwn
    · rw [Function.update_of_ne hne]
      exact (h.own other).congr (hBuf other hne)
  · intro other
    dsimp only
    obtain rfl | hne := eq_or_ne other tid
    · rw [Function.update_self]
      exact hTurn.slice hOwn hSlice
    · rw [Function.update_of_ne hne]
      intro c hLow hHigh
      rw [hXoff c fun hIn => hne (Fin.ext (slice_unique ⟨hLow, hHigh⟩ hIn))]
      exact h.cells other c hLow hHigh
  · intro c hc
    rw [← h.beyond c hc]
    refine hXoff c fun hIn => ?_
    have hEnd : sliceBegin nv nt (tid + 1) ≤ nv := sliceEnd_le tid
    omega

theorem prefixAt_of_reaches {buf : Nat → Nat}
    (hRun : ReflTransGen (PrefixStep nv nt) (prefixStart nt xoff buf) s) :
    ∃ added, PrefixAt nv nt xoff added s := by
  refine invariant_of_reaches (I := fun s => ∃ added, PrefixAt nv nt xoff added s) ?_
    ⟨1, prefixAt_start xoff buf⟩ hRun
  rintro s t ⟨added, h⟩ hStep
  exact h.step hStep

end Step

/-! ## Runs -/

section Runs

variable {s : PrefixTeam nt}

/-- The stages that are left, then the turns of the loop in this one. -/
def PrefixPhase.weight (nv nt : Nat) (phase : PrefixPhase) : Nat :=
  (6 - phase.stage) * (4 * nv + nt + 8) +
    match phase with
    | enter => 4 * nv + 5
    | summing k | scanning k _ => 2 * (nv - k) + 1
    | adding k _ | moving k _ _ => 2 * (nv - (k + 1)) + 2
    | atSingle => nt + 2
    | inSingle k => nt + 1 - k
    | _ => 0

theorem PrefixTurn.weight_lt {reached : Nat → Prop} {tid : Fin nt} {a a' : PrefixMemory × PrefixPhase}
    (hTurn : PrefixTurn nv nt reached tid a a') : a'.2.weight nv nt < a.2.weight nv nt := by
  have hEnd : sliceBegin nv nt (tid + 1) ≤ nv := sliceEnd_le tid
  cases hTurn <;> simp only [PrefixPhase.weight, PrefixPhase.stage] <;> omega

theorem wellFounded_prefixStep (nv nt : Nat) : WellFounded fun t s => PrefixStep nv nt s t :=
  wellFounded_teamStep (PrefixPhase.weight nv nt) fun _ _ _ _ hTurn => hTurn.weight_lt

/-- A thread that no other is behind has a turn. -/
theorem exists_prefixTurn {reached : Nat → Prop} {tid : Fin nt} {m : PrefixMemory}
    {phase : PrefixPhase} (hStage : phase.stage < 6) (hAll : reached phase.stage) :
    ∃ a', PrefixTurn nv nt reached tid (m, phase) a' := by
  cases phase with
  | enter => exact ⟨_, .clear⟩
  | summing k =>
    by_cases hk : k < sliceBegin nv nt (tid + 1)
    · exact ⟨_, .load hk⟩
    · exact ⟨_, .summed hk⟩
  | adding k value => exact ⟨_, .add⟩
  | firstBarrier => exact ⟨_, .passFirst hAll⟩
  | atSingle =>
    cases hSingle : m.single with
    | false => exact ⟨_, .enterSingle hSingle⟩
    | true => exact ⟨_, .skipSingle hSingle⟩
  | inSingle k =>
    by_cases hk : k < nt
    · exact ⟨_, .addPrevious hk⟩
    · exact ⟨_, .leaveSingle hk⟩
  | singleBarrier => exact ⟨_, .passSingle hAll⟩
  | scanning k t1 =>
    by_cases hk : k < sliceBegin nv nt (tid + 1)
    · exact ⟨_, .read hk⟩
    · exact ⟨_, .scanned hk⟩
  | moving k t1 tmp => exact ⟨_, .write⟩
  | lastBarrier => exact ⟨_, .passLast hAll⟩
  | returned accum => exact absurd hStage (Nat.lt_irrefl 6)

/-- No team is stuck before every thread has returned. -/
theorem stage_of_final (hnt : 0 < nt) (hFinal : ∀ t, ¬ PrefixStep nv nt s t) (tid : Fin nt) :
    (s.2 tid).stage = 6 := by
  have : Nonempty (Fin nt) := ⟨⟨0, hnt⟩⟩
  have hTop : ∀ phase : PrefixPhase, phase.stage ≤ 6 := by
    intro phase
    cases phase <;> simp [PrefixPhase.stage]
  by_contra hne
  have hNext : ∃ t, PrefixStep nv nt s t :=
    exists_teamStep (fun _ hStage hAll => exists_prefixTurn hStage hAll)
      ⟨tid, (hTop _).lt_of_ne hne⟩
  obtain ⟨t, hStep⟩ := hNext
  exact hFinal t hStep

theorem exists_returned {phase : PrefixPhase} (h : phase.stage = 6) :
    ∃ accum, phase = .returned accum := by
  cases phase with
  | returned accum => exact ⟨accum, rfl⟩
  | _ => exact absurd h (by simp [PrefixPhase.stage])

/-- A team of which every thread has returned. -/
theorem PrefixAt.final {added : Nat} (h : PrefixAt nv nt xoff added s) (hnt : 0 < nt)
    (hReturned : ∀ tid, (s.2 tid).stage = 6) :
    (∀ c < nv, s.1.xoff c = ∑ j ∈ Finset.range c, xoff j) ∧
      ∀ tid, s.2 tid = .returned (∑ j ∈ Finset.range nv, xoff j) := by
  constructor
  · intro c hc
    obtain ⟨tid, ⟨hLow, hHigh⟩, -⟩ := (existsUnique_slice hnt c).mp hc
    obtain ⟨accum, hPhase⟩ := exists_returned (hReturned tid)
    have hCell := h.cells tid c hLow hHigh
    rw [hPhase] at hCell
    rw [hCell]
    exact if_pos hHigh
  · intro tid
    obtain ⟨accum, hPhase⟩ := exists_returned (hReturned tid)
    have hOwn := h.own tid
    rw [hPhase] at hOwn ⊢
    rw [show accum = ∑ j ∈ Finset.range nv, xoff j from hOwn]

/-- Any schedule leaves what the loops leave when the threads run one after the other. -/
theorem eq_prefixSum {added : Nat} (h : PrefixAt nv nt xoff added s) (hnt : 0 < nt)
    (hReturned : ∀ tid, (s.2 tid).stage = 6) :
    s.1.xoff = (prefixSum nv nt xoff).1 ∧ ∀ tid, s.2 tid = .returned (prefixSum nv nt xoff).2 := by
  obtain ⟨hCells, hAccum⟩ := h.final hnt hReturned
  obtain ⟨hCells', hAccum'⟩ := prefixSum_apply nv nt hnt xoff
  refine ⟨funext fun c => ?_, fun tid => by rw [hAccum tid, hAccum']⟩
  rcases Nat.lt_or_ge c nv with hc | hc
  · rw [hCells c hc, hCells' c hc]
  · have hBeyond := scanSlices_apply nv nt xoff (Nat.le_refl nt) c
    rw [sliceBegin_last hnt, if_neg (Nat.not_lt.mpr hc)] at hBeyond
    rw [h.beyond c hc]
    exact hBeyond.symm

/-- With the total in `XOFF(nv)`, the loop of the sequential code. -/
theorem update_prefixSum (hnt : 0 < nt) (degrees : Nat → Nat) :
    Function.update (prefixSum nv nt (padDegrees nv degrees)).1 nv
      (prefixSum nv nt (padDegrees nv degrees)).2 = offsetsFrom degrees 0 0 nv := by
  obtain ⟨hCells, hAccum⟩ := prefixSum_apply nv nt hnt (padDegrees nv degrees)
  have hSum : ∀ c ≤ nv, ∑ j ∈ Finset.range c, padDegrees nv degrees j =
      ∑ j ∈ Finset.Ico 0 c, padDegree (degrees j) := by
    intro c hc
    rw [Finset.range_eq_Ico]
    refine Finset.sum_congr rfl fun j hj => ?_
    exact if_pos ((Finset.mem_Ico.mp hj).2.trans_le hc)
  funext c
  rw [offsetsFrom_apply, Nat.zero_add, Nat.zero_add]
  rcases Nat.lt_trichotomy c nv with hc | rfl | hc
  · rw [Function.update_of_ne hc.ne, hCells c hc, if_pos ⟨Nat.zero_le c, hc.le⟩, hSum c hc.le]
  · rw [Function.update_self, hAccum, if_pos ⟨Nat.zero_le c, Nat.le_refl c⟩, hSum c (Nat.le_refl c)]
  · have hBeyond := scanSlices_apply nv nt (padDegrees nv degrees) (Nat.le_refl nt) c
    rw [sliceBegin_last hnt, if_neg (by omega)] at hBeyond
    rw [Function.update_of_ne hc.ne', if_neg (by omega)]
    exact hBeyond.trans (if_neg (by omega))

end Runs

end Invariant

/-- Whatever the schedule: the slices are a partition, no run goes on for ever, and where it
cannot go on every thread has returned the total and the cells hold the sums before them, as
the loop of the sequential `setup_deg_off` leaves them. -/
theorem prefixSum_schedule (nv nt : Nat) (hnt : 0 < nt) (xoff buf : Nat → Nat) :
    (∀ c, c < nv ↔ ∃! tid : Fin nt, sliceBegin nv nt tid ≤ c ∧ c < sliceBegin nv nt (tid + 1)) ∧
      (WellFounded fun t s => PrefixStep nv nt s t) ∧
      ∀ s, ReflTransGen (PrefixStep nv nt) (prefixStart nt xoff buf) s →
        (∀ t, ¬ PrefixStep nv nt s t) →
        (∀ c < nv, s.1.xoff c = ∑ j ∈ Finset.range c, xoff j) ∧
        (∀ c, nv ≤ c → s.1.xoff c = xoff c) ∧
        (∀ tid, s.2 tid = .returned (∑ j ∈ Finset.range nv, xoff j)) ∧
        ∀ degrees, xoff = padDegrees nv degrees → ∀ tid accum, s.2 tid = .returned accum →
          Function.update s.1.xoff nv accum = offsetsFrom degrees 0 0 nv := by
  refine ⟨existsUnique_slice hnt, wellFounded_prefixStep nv nt, fun s hRun hFinal => ?_⟩
  obtain ⟨added, hAt⟩ := prefixAt_of_reaches hRun
  have hReturned := stage_of_final hnt hFinal
  obtain ⟨hCells, hAccum⟩ := hAt.final hnt hReturned
  refine ⟨hCells, hAt.beyond, hAccum, ?_⟩
  rintro degrees rfl tid accum hPhase
  obtain ⟨hXoff, hTotal⟩ := eq_prefixSum hAt hnt hReturned
  rw [hTotal tid] at hPhase
  cases hPhase
  rw [hXoff, update_prefixSum hnt]

theorem prefixSum_schedule_two :
    ∃ s, ReflTransGen (PrefixStep 3 2) (prefixStart 2 (fun k => k + 2) fun _ => 7) s ∧
      s.1.xoff 2 = 5 ∧ ∀ tid, s.2 tid = .returned 9 := by
  obtain ⟨s, hRun, hFinal⟩ :=
    exists_final (wellFounded_prefixStep 3 2) (prefixStart 2 (fun k => k + 2) fun _ => 7)
  obtain ⟨hCells, -, hAccum, -⟩ :=
    (prefixSum_schedule 3 2 Nat.two_pos (fun k => k + 2) fun _ => 7).2.2 s hRun hFinal
  exact ⟨s, hRun, hCells 2 (by decide), hAccum⟩

end Trident.Graph500
