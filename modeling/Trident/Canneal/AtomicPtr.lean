import Mathlib.Order.Preorder.Finite
import Mathlib.Algebra.Order.BigOperators.Group.Multiset
import Mathlib.Data.Fintype.Perm
import Trident.Lib.Transition

/-! # Concurrent swaps of atomic pointers

`AtomicPtr::Swap` with threads enabled, cut into its atomic loads,
compare-and-sets and stores. An element whose pointer is `none` holds
`ATOMIC_NULL`, that is, it is checked out.
-/

namespace Trident.Canneal

open Transition Relation

variable {E L T : Type*}

/-- The locations the netlist constructor hands out: one to each element. -/
structure Placement (E L : Type*) where
  loc : E → L
  injective : Function.Injective loc

abbrev Mem (E L : Type*) := E → Option L

/-- The two calls of `PrivateSet` in a swap: `first->Checkout()` and
`last->PrivateSet(valFirst)`. -/
inductive Phase (L : Type*) where
  | checkout
  | exchange (valFirst : L)

inductive Local (E L : Type*) where
  | idle
  | get (first last : E) (phase : Phase L)
  | cmpset (first last : E) (phase : Phase L) (val : L)
  | checkin (first : E) (valLast : L)

def Phase.target (first last : E) : Phase L → E
  | .checkout => first
  | .exchange _ => last

def Phase.stored : Phase L → Option L
  | .checkout => none
  | .exchange valFirst => some valFirst

/-- What follows once `PrivateSet` has returned `val`. -/
def Phase.next (first last : E) (val : L) : Phase L → Local E L
  | .checkout => .get first last (.exchange val)
  | .exchange _ => .checkin first val

/-- The order of acquisition in `Swap`: from lower to higher addresses. -/
def startSwap [LinearOrder E] (this X : E) : Local E L :=
  if this < X then .get this X .checkout else .get X this .checkout

inductive SwapStep [LinearOrder E] : Mem E L → Local E L → Mem E L → Local E L → Prop
  | call (m : Mem E L) (this X : E) (h : this ≠ X) : SwapStep m .idle m (startSwap this X)
  | spin (m : Mem E L) (first last : E) (phase : Phase L)
      (h : m (phase.target first last) = none) :
      SwapStep m (.get first last phase) m (.get first last phase)
  | load (m : Mem E L) (first last : E) (phase : Phase L) (val : L)
      (h : m (phase.target first last) = some val) :
      SwapStep m (.get first last phase) m (.cmpset first last phase val)
  | retry (m : Mem E L) (first last : E) (phase : Phase L) (val : L)
      (h : m (phase.target first last) ≠ some val) :
      SwapStep m (.cmpset first last phase val) m (.get first last phase)
  | set (m : Mem E L) (first last : E) (phase : Phase L) (val : L)
      (h : m (phase.target first last) = some val) :
      SwapStep m (.cmpset first last phase val)
        (Function.update m (phase.target first last) phase.stored) (phase.next first last val)
  | store (m : Mem E L) (first : E) (valLast : L) :
      SwapStep m (.checkin first valLast) (Function.update m first (some valLast)) .idle

/-- The pointer a thread carries between taking it out of one element and putting it back. -/
def Local.held : Local E L → Multiset L
  | .get _ _ (.exchange valFirst) => {valFirst}
  | .cmpset _ _ (.exchange valFirst) _ => {valFirst}
  | .checkin _ valLast => {valLast}
  | _ => 0

def Local.owner : Local E L → Option E
  | .get first _ (.exchange _) => some first
  | .cmpset first _ (.exchange _) _ => some first
  | .checkin first _ => some first
  | _ => none

def Local.Ordered [LinearOrder E] : Local E L → Prop
  | .get first last _ => first < last
  | .cmpset first last _ _ => first < last
  | _ => True

def present : Option L → Multiset L
  | none => 0
  | some p => {p}

theorem SwapStep.ordered [LinearOrder E] {m m' : Mem E L} {a b : Local E L}
    (h : SwapStep m a m' b) (ha : a.Ordered) : b.Ordered := by
  cases h with
  | call this X hne =>
    unfold startSwap
    split_ifs with hlt
    · exact hlt
    · exact lt_of_le_of_ne (not_lt.mp hlt) (Ne.symm hne)
  | spin | load | retry => exact ha
  | set first last phase => cases phase <;> first | exact ha | trivial
  | store => trivial

/-- All that a step can do: nothing to the pointers, a checkout, an exchange with an
element that is not the thread's own, or a checkin of the thread's own element. -/
inductive Effect [LinearOrder E] (m : Mem E L) (a : Local E L) (m' : Mem E L) (b : Local E L) : Prop
  | quiet (hm : m' = m) (ho : b.owner = a.owner) (hh : b.held = a.held)
  | checkout (e : E) (v : L) (he : m e = some v) (hm : m' = Function.update m e none)
      (ha : a.owner = none) (hb : b.owner = some e) (hha : a.held = 0) (hhb : b.held = {v})
  | exchange (e : E) (v w : L) (he : m e = some v) (hm : m' = Function.update m e (some w))
      (ho : b.owner = a.owner) (hne : a.owner ≠ some e) (hha : a.held = {w}) (hhb : b.held = {v})
  | checkin (e : E) (v : L) (hm : m' = Function.update m e (some v)) (ha : a.owner = some e)
      (hb : b.owner = none) (hha : a.held = {v}) (hhb : b.held = 0)

theorem SwapStep.effect [LinearOrder E] {m m' : Mem E L} {a b : Local E L}
    (h : SwapStep m a m' b) (ha : a.Ordered) : Effect m a m' b := by
  cases h with
  | call this X =>
    unfold startSwap
    split_ifs <;> exact .quiet rfl rfl rfl
  | spin first last phase => exact .quiet rfl rfl rfl
  | load first last phase => cases phase <;> exact .quiet rfl rfl rfl
  | retry first last phase => cases phase <;> exact .quiet rfl rfl rfl
  | set first last phase val hval =>
    cases phase with
    | checkout => exact .checkout first val hval rfl rfl rfl rfl rfl
    | exchange w =>
      have hne : (some first : Option E) ≠ some last := fun h => ha.ne (Option.some.inj h)
      exact .exchange last val w hval rfl rfl hne rfl rfl
  | store first valLast => exact .checkin first valLast rfl rfl rfl rfl rfl

abbrev State (E L T : Type*) := Mem E L × (T → Local E L)

def start (p : Placement E L) : State E L T := (fun e => some (p.loc e), fun _ => .idle)

section Pointers

variable [Fintype E] [Fintype T]

/-- Every location pointer of the system, in an element or in the hands of a thread. -/
def pointers (s : State E L T) : Multiset L :=
  ∑ e, present (s.1 e) + ∑ t, (s.2 t).held

omit [Fintype T] in
theorem sum_singleton (f : E → L) : ∑ e, ({f e} : Multiset L) = Finset.univ.val.map f := by
  rw [← Multiset.sum_map_singleton (Finset.univ.val.map f), Multiset.map_map]
  rfl

theorem pointers_start (p : Placement E L) :
    pointers (start p : State E L T) = Finset.univ.val.map p.loc := by
  have hHeld : ∑ t, ((start p : State E L T).2 t).held = 0 := Finset.sum_eq_zero fun _ _ => rfl
  rw [pointers, hHeld, add_zero]
  exact sum_singleton p.loc

end Pointers

section Runs

variable [LinearOrder E]

def Step [DecidableEq T] : State E L T → State E L T → Prop := Interleave SwapStep

/-- No element is checked out twice, and none is empty without being checked out. -/
structure Ownership (s : State E L T) : Prop where
  ordered : ∀ t, (s.2 t).Ordered
  empty : ∀ t e, (s.2 t).owner = some e → s.1 e = none
  unique : ∀ t u e, (s.2 t).owner = some e → (s.2 u).owner = some e → t = u
  owned : ∀ e, s.1 e = none → ∃ t, (s.2 t).owner = some e

theorem ownership_start (p : Placement E L) : Ownership (start p : State E L T) where
  ordered _ := trivial
  empty _ _ h := nomatch h
  unique _ _ _ h := nomatch h
  owned _ h := nomatch h

variable [DecidableEq T]

theorem Ownership.step {s u : State E L T} (hs : Ownership s) (h : Step s u) : Ownership u := by
  obtain ⟨i, next, hStep, hLocals⟩ := h
  have hSelf : u.2 i = next := by rw [hLocals, Function.update_self]
  have hOther : ∀ t, t ≠ i → u.2 t = s.2 t := fun t ht => by
    rw [hLocals, Function.update_of_ne ht]
  have hOrdered : ∀ t, (u.2 t).Ordered := fun t => by
    rcases eq_or_ne t i with ht | ht
    · rw [ht, hSelf]
      exact hStep.ordered (hs.ordered i)
    · rw [hOther t ht]
      exact hs.ordered t
  cases hStep.effect (hs.ordered i) with
  | quiet hm ho hh =>
    have hOwner : ∀ t, (u.2 t).owner = (s.2 t).owner := fun t => by
      rcases eq_or_ne t i with ht | ht
      · rw [ht, hSelf, ho]
      · rw [hOther t ht]
    refine ⟨hOrdered, ?_, ?_, ?_⟩ <;> simp only [hOwner, hm]
    exacts [hs.empty, hs.unique, hs.owned]
  | checkout e v he hm ha hb hha hhb =>
    have hFree : ∀ t, (s.2 t).owner ≠ some e := fun t ht => by
      simp [hs.empty t e ht] at he
    refine ⟨hOrdered, fun t f hf => ?_, fun t t' f hf hf' => ?_, fun f hf => ?_⟩
    · rcases eq_or_ne f e with hfe | hfe
      · rw [hm, hfe, Function.update_self]
      · rw [hm, Function.update_of_ne hfe]
        rcases eq_or_ne t i with ht | ht
        · rw [ht, hSelf, hb] at hf
          exact absurd (Option.some.inj hf).symm hfe
        · exact hs.empty t f (hOther t ht ▸ hf)
    · by_cases ht : t = i <;> rcases eq_or_ne t' i with ht' | ht'
      · rw [ht, ht']
      · rw [ht, hSelf, hb] at hf
        exact absurd (hOther t' ht' ▸ hf') (Option.some.inj hf ▸ hFree t')
      · rw [ht', hSelf, hb] at hf'
        exact absurd (hOther t ht ▸ hf) (Option.some.inj hf' ▸ hFree t)
      · exact hs.unique t t' f (hOther t ht ▸ hf) (hOther t' ht' ▸ hf')
    · rcases eq_or_ne f e with hfe | hfe
      · exact ⟨i, by rw [hSelf, hb, hfe]⟩
      · rw [hm, Function.update_of_ne hfe] at hf
        obtain ⟨t, ht⟩ := hs.owned f hf
        have hti : t ≠ i := fun h => by simp [h, ha] at ht
        exact ⟨t, hOther t hti ▸ ht⟩
  | exchange e v w he hm ho hne hha hhb =>
    have hOwner : ∀ t, (u.2 t).owner = (s.2 t).owner := fun t => by
      rcases eq_or_ne t i with ht | ht
      · rw [ht, hSelf, ho]
      · rw [hOther t ht]
    refine ⟨hOrdered, fun t f hf => ?_, ?_, fun f hf => ?_⟩
    · have hEmpty := hs.empty t f (hOwner t ▸ hf)
      have hfe : f ≠ e := fun h => by simp [← h, hEmpty] at he
      rw [hm, Function.update_of_ne hfe, hEmpty]
    · simpa only [hOwner] using hs.unique
    · have hfe : f ≠ e := fun h => by simp [hm, h] at hf
      rw [hm, Function.update_of_ne hfe] at hf
      simpa only [hOwner] using hs.owned f hf
  | checkin e v hm ha hb hha hhb =>
    have hFree : ∀ t, (u.2 t).owner = some e → False := fun t ht => by
      rcases eq_or_ne t i with hti | hti
      · simp [hti, hSelf, hb] at ht
      · exact hti (hs.unique t i e (hOther t hti ▸ ht) ha)
    have hOld : ∀ t f, (u.2 t).owner = some f → (s.2 t).owner = some f := fun t f hf => by
      have hti : t ≠ i := fun h => by simp [h, hSelf, hb] at hf
      exact hOther t hti ▸ hf
    refine ⟨hOrdered, fun t f hf => ?_, fun t t' f hf hf' => ?_, fun f hf => ?_⟩
    · have hfe : f ≠ e := fun h => hFree t (h ▸ hf)
      rw [hm, Function.update_of_ne hfe]
      exact hs.empty t f (hOld t f hf)
    · exact hs.unique t t' f (hOld t f hf) (hOld t' f hf')
    · have hfe : f ≠ e := fun h => by simp [hm, h] at hf
      rw [hm, Function.update_of_ne hfe] at hf
      obtain ⟨t, ht⟩ := hs.owned f hf
      have hti : t ≠ i := fun h => hfe (Option.some.inj (ht.symm.trans (h ▸ ha)))
      exact ⟨t, hOther t hti ▸ ht⟩

theorem ownership_of_reaches {p : Placement E L} {s : State E L T}
    (h : ReflTransGen Step (start p) s) : Ownership s :=
  invariant_of_reaches (fun _ _ hs => hs.step) (ownership_start p) h

variable [Fintype E] [Fintype T]

/-- What leaves an element arrives at the thread and the other way round. -/
theorem pointers_step {s u : State E L T} (hs : Ownership s) (h : Step s u) :
    pointers u = pointers s := by
  obtain ⟨i, next, hStep, hLocals⟩ := h
  have hThreads := sum_update_add (fun l : Local E L => l.held) s.2 i next
  rw [← hLocals] at hThreads
  cases hStep.effect (hs.ordered i) with
  | quiet hm ho hh =>
    rw [hh] at hThreads
    rw [pointers, pointers, hm, add_right_cancel hThreads]
  | checkout e v he hm ha hb hha hhb =>
    have hMem := sum_update_add present s.1 e none
    rw [← hm, he, present, present, add_zero] at hMem
    rw [hha, hhb, add_zero] at hThreads
    rw [pointers, pointers, hThreads, ← hMem, add_assoc, add_comm ({v} : Multiset L)]
  | exchange e v w he hm ho hne hha hhb =>
    have hMem := sum_update_add present s.1 e (some w)
    rw [← hm, he, present, present] at hMem
    rw [hha, hhb] at hThreads
    apply add_right_cancel (b := {v} + {w})
    calc pointers u + ({v} + {w})
        = (∑ f, present (u.1 f) + {v}) + (∑ t, (u.2 t).held + {w}) := by
          rw [pointers, add_add_add_comm]
      _ = (∑ f, present (s.1 f) + {w}) + (∑ t, (s.2 t).held + {v}) := by rw [hMem, hThreads]
      _ = pointers s + ({v} + {w}) := by rw [pointers, add_add_add_comm, add_comm ({w} : Multiset L)]
  | checkin e v hm ha hb hha hhb =>
    have hMem := sum_update_add present s.1 e (some v)
    rw [← hm, hs.empty i e ha, present, present, add_zero] at hMem
    rw [hha, hhb, add_zero] at hThreads
    rw [pointers, pointers, ← hThreads, hMem, add_assoc, add_comm ({v} : Multiset L)]

theorem pointers_of_reaches {p : Placement E L} {s : State E L T}
    (h : ReflTransGen Step (start p) s) : pointers s = Finset.univ.val.map p.loc := by
  induction h with
  | refl => exact pointers_start p
  | tail hab hbc ih => rw [pointers_step (ownership_of_reaches hab) hbc, ih]

def NoSwap (s : State E L T) : Prop := ∀ t, s.2 t = .idle

theorem permutation_of_noSwap {p : Placement E L} {s : State E L T}
    (h : ReflTransGen Step (start p) s) (hIdle : NoSwap s) :
    ∃ f : Equiv.Perm E, ∀ e, s.1 e = some (p.loc (f e)) := by
  have hOwn := ownership_of_reaches h
  have hSome : ∀ e, ∃ v, s.1 e = some v := fun e => by
    cases he : s.1 e with
    | some v => exact ⟨v, rfl⟩
    | none =>
      obtain ⟨t, ht⟩ := hOwn.owned e he
      simp [hIdle t, Local.owner] at ht
  choose loc hLoc using hSome
  have hSum : pointers s = Finset.univ.val.map loc := by
    have hHeld : ∑ t, (s.2 t).held = 0 := Finset.sum_eq_zero fun t _ => by rw [hIdle t]; rfl
    rw [pointers, hHeld, add_zero]
    simp only [hLoc, present]
    exact sum_singleton loc
  rw [pointers_of_reaches h] at hSum
  have hInjective : Function.Injective loc := by
    rw [← Fintype.nodup_map_univ_iff_injective, ← hSum]
    exact Finset.univ.nodup.map p.injective
  have hOrigin : ∀ e, ∃ e', p.loc e' = loc e := fun e => by
    have hMem : loc e ∈ Finset.univ.val.map p.loc :=
      hSum ▸ Multiset.mem_map_of_mem loc (Finset.mem_univ e)
    obtain ⟨e', _, he'⟩ := Multiset.mem_map.mp hMem
    exact ⟨e', he'⟩
  choose f hf using hOrigin
  have hf' : Function.Injective f := fun a b hab =>
    hInjective ((hf a).symm.trans ((congrArg p.loc hab).trans (hf b)))
  exact ⟨Equiv.ofBijective f (Finite.injective_iff_bijective.mp hf'), fun e => by
    rw [hLoc e, ← hf e]
    rfl⟩

/-- In every reachable state the pointers in the elements that are not checked out and in
the hands of the threads are the initial locations, each once; with no swap under way the
elements hold a permutation of them. -/
theorem swaps_keep_locations (p : Placement E L) (s : State E L T)
    (h : ReflTransGen Step (start p) s) :
    pointers s = Finset.univ.val.map p.loc ∧ (pointers s).Nodup ∧
    (NoSwap s → ∃ f : Equiv.Perm E, ∀ e, s.1 e = some (p.loc (f e))) := by
  have hPointers := pointers_of_reaches h
  refine ⟨hPointers, ?_, permutation_of_noSwap h⟩
  rw [hPointers]
  exact Finset.univ.nodup.map p.injective

end Runs

def twoElements : Placement (Fin 2) ℕ := ⟨Fin.val, Fin.val_injective⟩

/-- One thread in the middle of a swap: the lower element is checked out, its location held. -/
def checkedOut : State (Fin 2) ℕ Unit :=
  (Function.update (fun e => some e.val) 0 none, fun _ => .get 0 1 (.exchange 0))

theorem checkedOut_reached : ReflTransGen Step (start twoElements) checkedOut := by
  have hLocals : ∀ (a b : Local (Fin 2) ℕ), (fun _ : Unit => b) =
      Function.update (fun _ => a) () b := fun a b => by
    funext t
    rw [Function.update_self]
  have hCall : Step (start twoElements) ((start twoElements : State _ _ Unit).1,
      fun _ => .get 0 1 .checkout) :=
    ⟨(), _, .call _ 0 1 (by decide), hLocals _ _⟩
  have hLoad : Step ((start twoElements : State _ _ Unit).1, fun _ => .get 0 1 .checkout)
      ((start twoElements : State _ _ Unit).1, fun _ => .cmpset 0 1 .checkout 0) :=
    ⟨(), _, .load _ 0 1 .checkout 0 rfl, hLocals _ _⟩
  have hSet : Step ((start twoElements : State _ _ Unit).1, fun _ => .cmpset 0 1 .checkout 0)
      checkedOut := ⟨(), _, .set _ 0 1 .checkout 0 rfl, hLocals _ _⟩
  exact ((ReflTransGen.single hCall).tail hLoad).tail hSet

theorem swaps_keep_locations_midway :
    pointers checkedOut = Finset.univ.val.map twoElements.loc ∧ (pointers checkedOut).Nodup ∧
    (NoSwap checkedOut → ∃ f : Equiv.Perm (Fin 2), ∀ e, checkedOut.1 e = some (twoElements.loc (f e))) :=
  swaps_keep_locations twoElements checkedOut checkedOut_reached

section Progress

/-- The element that the next load of a thread is from. -/
def Local.needs : Local E L → Option E
  | .get first last phase => some (phase.target first last)
  | .cmpset first last phase _ => some (phase.target first last)
  | _ => none

/-- The thread is in a swap and does not spin. -/
def Local.Proceeds (m : Mem E L) (l : Local E L) : Prop :=
  l ≠ .idle ∧ ∀ e, l.needs = some e → m e ≠ none

variable [LinearOrder E]

theorem Local.owner_lt_needs {l : Local E L} {e f : E} (hOrdered : l.Ordered)
    (hOwner : l.owner = some e) (hNeeds : l.needs = some f) : e < f := by
  cases l with
  | idle => cases hOwner
  | checkin first valLast => cases hNeeds
  | get first last phase =>
    cases phase with
    | checkout => cases hOwner
    | exchange valFirst =>
      cases hOwner
      cases hNeeds
      exact hOrdered
  | cmpset first last phase val =>
    cases phase with
    | checkout => cases hOwner
    | exchange valFirst =>
      cases hOwner
      cases hNeeds
      exact hOrdered

theorem Local.Proceeds.step {m : Mem E L} {l : Local E L} (h : l.Proceeds m) :
    ∃ m' l', SwapStep m l m' l' ∧ l' ≠ l := by
  obtain ⟨hBusy, hFree⟩ := h
  cases l with
  | idle => exact absurd rfl hBusy
  | get first last phase =>
    obtain ⟨val, hVal⟩ := Option.ne_none_iff_exists'.mp (hFree _ rfl)
    exact ⟨m, _, .load m first last phase val hVal, nofun⟩
  | cmpset first last phase val =>
    cases Classical.em (m (phase.target first last) = some val) with
    | inl hSame =>
      refine ⟨_, _, .set m first last phase val hSame, ?_⟩
      cases phase <;> nofun
    | inr hOther => exact ⟨m, _, .retry m first last phase val hOther, nofun⟩
  | checkin first valLast => exact ⟨_, _, .store m first valLast, nofun⟩

variable [Fintype E] [DecidableEq T]

/-- The thread that holds the highest of the elements checked out does not wait. -/
theorem some_swap_proceeds (p : Placement E L) (s : State E L T)
    (h : ReflTransGen Step (start p) s) (hBusy : ¬ NoSwap s) :
    ∃ t, (s.2 t).Proceeds s.1 ∧ ∃ m l, SwapStep s.1 (s.2 t) m l ∧ l ≠ s.2 t := by
  have hOwn := ownership_of_reaches h
  suffices hSome : ∃ t, (s.2 t).Proceeds s.1 by
    obtain ⟨t, ht⟩ := hSome
    exact ⟨t, ht, ht.step⟩
  cases Classical.em (∃ e, s.1 e = none) with
  | inl hEmpty =>
    obtain ⟨e, he, hTop⟩ := (Set.toFinite {e | s.1 e = none}).exists_maximal hEmpty
    obtain ⟨t, ht⟩ := hOwn.owned e he
    refine ⟨t, fun hIdle => ?_, fun f hf hNone => ?_⟩
    · rw [hIdle] at ht
      cases ht
    · have hLt := Local.owner_lt_needs (hOwn.ordered t) ht hf
      exact absurd (hTop hNone hLt.le) (not_le.mpr hLt)
  | inr hFull =>
    rw [NoSwap, not_forall] at hBusy
    obtain ⟨t, ht⟩ := hBusy
    exact ⟨t, ht, fun e _ hNone => hFull ⟨e, hNone⟩⟩

theorem checkedOut_proceeds :
    ∃ t, (checkedOut.2 t).Proceeds checkedOut.1 ∧
      ∃ m l, SwapStep checkedOut.1 (checkedOut.2 t) m l ∧ l ≠ checkedOut.2 t :=
  some_swap_proceeds twoElements checkedOut checkedOut_reached fun h => nomatch h ()

end Progress

end Trident.Canneal
