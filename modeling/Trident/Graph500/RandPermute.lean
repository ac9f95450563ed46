import Mathlib.Data.Set.Function
import Mathlib.Data.List.FinRange
import Trident.Lib.Rounding
import Trident.Lib.Shuffle
import Trident.Graph500.EdgeList
import Trident.Graph500.Bernoulli

/-! # The random permutation

`MAKE_RANDPERMUTE` without threads, and the new labels that `permute_vertex_labels` draws with it. A
double of the generator may be 1, and then the place that it gives lies behind the array.
-/

namespace Trident.Graph500

open Function Rounding Shuffle

section Program

variable {α : Type}

/-- The double of two numbers, as a multiple of `2 ^ -92`. The factors are `2147483649 / 2 ^ 62` and
`1073741825 / 2 ^ 92`, and of each product and of the sum 53 bits are kept. -/
def realOf (first second : Nat) : Nat :=
  significant 53 (significant 53 (first * 2147483649) * 2 ^ 30 + significant 53 (second * 1073741825))

/-- `place`, from the next double -/
def drawPlace (nelem k : Nat) (st : MrgState) : Nat × MrgState :=
  let (draw, st) := mrgGetDoubleOrig (fun first second => realOf first.val second.val) st
  (k + significant 53 (draw * significant 53 (nelem - k)) / 2 ^ 92, st)

/-- `none` is an access behind the array. -/
def exchangeElems (a : List α) (k place : Nat) : Option (List α) :=
  if k ≠ place then do
    let t ← a[place]?
    let ak ← a[k]?
    some ((a.set place ak).set k t)
  else some a

/-- One turn of the loop. -/
def permuteTurn (nelem : Nat) (s : List α × MrgState) (k : Nat) : Option (List α × MrgState) :=
  let (place, st) := drawPlace nelem k s.2
  (exchangeElems s.1 k place).map (·, st)

def randpermute (a : List α) (st : MrgState) : Option (List α) :=
  ((List.range a.length).foldlM (permuteTurn a.length) (a, st)).map Prod.fst

/-- A vertex without a label has none either. -/
def permuteVertexLabels (edges : List PackedEdge) (maxNvtx : Nat) (st : MrgState) :
    Option (List PackedEdge) := do
  let newlabel ← randpermute (List.range maxNvtx) st
  edges.mapM fun e => do
    let v0 : Nat ← newlabel[e.i]?
    let v1 : Nat ← newlabel[e.j]?
    some (writeEdge v0 v1)

/-- `randpermute_packed_edge` -/
def permuteEdgelist (edges : List PackedEdge) (st : MrgState) : Option (List PackedEdge) :=
  randpermute edges st

/-- What `rmat_edgelist` does with its edges, from the two states that `mrg_skip` gives. -/
def permuteGraph (edges : List PackedEdge) (maxNvtx : Nat) (st st' : MrgState) : Option (List PackedEdge) := do
  let relabeled ← permuteVertexLabels edges maxNvtx st
  permuteEdgelist relabeled st'

end Program

section Places

variable {nelem k : Nat} {st : MrgState}

theorem realOf_mono {f f' s s' : Nat} (hf : f ≤ f') (hs : s ≤ s') : realOf f s ≤ realOf f' s' := by
  have hFirst := significant_mono (p := 53) (by decide) (Nat.mul_le_mul_right 2147483649 hf)
  have hSecond := significant_mono (p := 53) (by decide) (Nat.mul_le_mul_right 1073741825 hs)
  exact significant_mono (by decide) (Nat.add_le_add (Nat.mul_le_mul_right _ hFirst) hSecond)

theorem realOf_le (first second : Residue) : realOf first.val second.val ≤ 2 ^ 92 := by
  have hTop : realOf 2147483646 2147483646 = 2 ^ 92 := by decide
  rw [← hTop]
  exact realOf_mono (by omega) (by omega)

theorem realOf_eq_one_iff {first second : Residue} :
    realOf first.val second.val = 2 ^ 92 ↔ first.val = 2147483646 ∧ 2147483391 ≤ second.val := by
  constructor
  · intro hOne
    constructor
    · by_contra hNe
      have hBelow : realOf 2147483645 2147483646 < 2 ^ 92 := by decide
      have hLe : realOf first.val second.val ≤ realOf 2147483645 2147483646 :=
        realOf_mono (by omega) (by omega)
      omega
    · by_contra hLess
      have hBelow : realOf 2147483646 2147483390 < 2 ^ 92 := by decide
      have hLe : realOf first.val second.val ≤ realOf 2147483646 2147483390 :=
        realOf_mono (by omega) (by omega)
      omega
  · rintro ⟨hFirst, hSecond⟩
    have hTop : realOf 2147483646 2147483391 = 2 ^ 92 := by decide
    apply le_antisymm (realOf_le first second)
    rw [← hTop, hFirst]
    exact realOf_mono le_rfl hSecond

/-- The double of turn `k` is 1. -/
def DrawsOne (st : MrgState) (k : Nat) : Prop :=
  (mrgOrigStep^[2 * k + 1] st).z1.val = 2147483646 ∧ 2147483391 ≤ (mrgOrigStep^[2 * k + 2] st).z1.val

/-- The place of turn `k`. -/
def placeAt (nelem : Nat) (st : MrgState) (k : Nat) : Nat := (drawPlace nelem k (mrgOrigStep^[2 * k] st)).1

theorem le_placeAt (nelem : Nat) (st : MrgState) (k : Nat) : k ≤ placeAt nelem st k := Nat.le_add_right _ _

/-- A double below 1 is so far below it that the product is not rounded up to `m`. -/
theorem floor_lt {draw m : Nat} (hDraw : draw + 2 ^ 39 ≤ 2 ^ 92) (hm : 0 < m) :
    significant 53 (draw * m) / 2 ^ 92 < m := by
  have hRound := significant_mul_le 53 (draw * m)
  have hFactors : (2 ^ 92 - 2 ^ 39) * (2 ^ 53 + 1) < 2 ^ 92 * 2 ^ 53 := by decide
  rw [Nat.div_lt_iff_lt_mul (Nat.two_pow_pos 92)]
  refine Nat.lt_of_mul_lt_mul_right (a := 2 ^ 53) (hRound.trans_lt ?_)
  calc draw * m * (2 ^ 53 + 1)
    _ = m * (draw * (2 ^ 53 + 1)) := by rw [Nat.mul_comm draw m, Nat.mul_assoc]
    _ ≤ m * ((2 ^ 92 - 2 ^ 39) * (2 ^ 53 + 1)) :=
      Nat.mul_le_mul_left m (Nat.mul_le_mul_right _ (by omega))
    _ < m * (2 ^ 92 * 2 ^ 53) := Nat.mul_lt_mul_of_pos_left hFactors hm
    _ = m * 2 ^ 92 * 2 ^ 53 := (Nat.mul_assoc _ _ _).symm

theorem placeAt_lt_iff (hSize : nelem ≤ 2 ^ 53) (hk : k < nelem) :
    placeAt nelem st k < nelem ↔ ¬ DrawsOne st k := by
  have hLeft : nelem - k ≤ 2 ^ 53 := (Nat.sub_le nelem k).trans hSize
  have hWhole : ∀ e, significant 53 ((nelem - k) * 2 ^ e) = (nelem - k) * 2 ^ e :=
    significant_exact (by decide) hLeft
  have hSame := hWhole 0
  rw [Nat.pow_zero, Nat.mul_one] at hSame
  rw [DrawsOne, ← realOf_eq_one_iff, iterate_succ_apply' mrgOrigStep (2 * k + 1), iterate_succ_apply', placeAt,
    drawPlace]
  dsimp only [mrgGetDoubleOrig, mrgGetUintOrig]
  rw [hSame]
  generalize (mrgOrigStep (mrgOrigStep^[2 * k] st)).z1 = first
  generalize (mrgOrigStep (mrgOrigStep (mrgOrigStep^[2 * k] st))).z1 = second
  obtain hBelow | hOne := Nat.lt_or_eq_of_le (realOf_le first second)
  · have hGap : realOf first.val second.val + 2 ^ 39 ≤ 2 ^ 92 :=
      significant_gap (by decide) (by decide) hBelow
    have hFloor := floor_lt hGap (Nat.sub_pos_of_lt hk)
    exact iff_of_true (by omega) hBelow.ne
  · rw [hOne, Nat.mul_comm, hWhole 92, Nat.mul_div_cancel _ (Nat.two_pow_pos 92)]
    exact iff_of_false (by omega) (not_not.mpr rfl)

end Places

section Permutations

variable {α : Type} {n : Nat}

/-- The loop, with the places known. -/
def exchangeAll (place : Nat → Nat) (a : List α) : Option (List α) :=
  (List.range a.length).foldlM (fun a k => exchangeElems a k (place k)) a

theorem randpermute_eq (a : List α) (st : MrgState) :
    randpermute a st = exchangeAll (placeAt a.length st) a := by
  have hTurns : ∀ m, (List.range m).foldlM (permuteTurn a.length) (a, st) =
      ((List.range m).foldlM (fun a' k => exchangeElems a' k (placeAt a.length st k)) a).map
        (·, mrgOrigStep^[2 * m] st) := by
    intro m
    induction m with
    | zero => rfl
    | succ m ih =>
      rw [List.range_succ, List.foldlM_append, List.foldlM_append, ih]
      cases (List.range m).foldlM (fun a' k => exchangeElems a' k (placeAt a.length st k)) a with
      | none => rfl
      | some a' =>
        have hStates : (drawPlace a.length m (mrgOrigStep^[2 * m] st)).2 = mrgOrigStep^[2 * (m + 1)] st := by
          rw [Nat.mul_succ, iterate_succ_apply' mrgOrigStep (2 * m + 1), iterate_succ_apply']
          rfl
        simp only [Option.map_some, Option.bind_eq_bind, Option.bind_some, List.foldlM_cons, List.foldlM_nil,
          permuteTurn, hStates, placeAt, Option.pure_def, Option.bind_fun_some]
  rw [randpermute, hTurns, Option.map_map]
  exact congrFun Option.map_id _

theorem exchangeElems_ofFn (a : Fin n → α) (k place : Fin n) :
    exchangeElems (List.ofFn a) k place = some (List.ofFn (a ∘ Equiv.swap k place)) := by
  have hSet : ∀ (b : Fin n → α) (i : Fin n) (x : α), (List.ofFn b).set i x = List.ofFn (update b i x) := by
    intro b i x
    apply List.ext_getElem
    · rw [List.length_set, List.length_ofFn, List.length_ofFn]
    · intro j hj _
      rw [List.length_set, List.length_ofFn] at hj
      rw [List.getElem_set, List.getElem_ofFn, List.getElem_ofFn, update_apply]
      simp only [Fin.ext_iff, eq_comm]
  have hGet : ∀ i : Fin n, (List.ofFn a)[i.val]? = some (a i) := by
    intro i
    rw [List.getElem?_ofFn, dif_pos i.isLt]
  rw [exchangeElems]
  split
  · rw [hGet, hGet, Option.bind_eq_bind, Option.bind_some, Option.bind_some, hSet, hSet]
    congr 2
    funext i
    rw [comp_apply, Equiv.swap_apply_def]
    split
    · rename_i hk
      rw [hk, update_self]
    · rename_i hk
      rw [update_of_ne hk]
      split
      · rename_i hPlace
        rw [hPlace, update_self]
      · rename_i hPlace
        rw [update_of_ne hPlace]
  · rename_i hSame
    rw [Fin.ext (not_not.mp hSame), Equiv.swap_self]
    rfl

theorem exchangeAll_ofFn {place : Nat → Nat} {places : Places (Fin n)}
    (hPlaces : ∀ k, (places k).val.val = place k) (a : Fin n → α) :
    exchangeAll place (List.ofFn a) = some (List.ofFn (a ∘ exchanges places (List.finRange n))) := by
  have hTurns : ∀ (l : List (Fin n)) (a : Fin n → α),
      l.foldlM (fun a (k : Fin n) => exchangeElems a k (place k)) (List.ofFn a) =
        some (List.ofFn (a ∘ exchanges places l)) := by
    intro l
    induction l with
    | nil => exact fun a => rfl
    | cons k l ih =>
      intro a
      rw [List.foldlM_cons, ← hPlaces k, exchangeElems_ofFn, Option.bind_eq_bind, Option.bind_some, ih,
        exchanges_cons, Equiv.Perm.coe_mul, comp_assoc]
  rw [exchangeAll, List.length_ofFn, ← List.map_coe_finRange_eq_range, List.foldlM_map]
  exact hTurns _ a

/-- An exchange that is made keeps to the array. -/
theorem exchangeElems_some {a b : List α} {k place : Nat} (hk : k < a.length)
    (h : exchangeElems a k place = some b) : place < a.length ∧ b.length = a.length := by
  rw [exchangeElems] at h
  split at h
  · obtain ⟨t, ht, hRest⟩ := Option.bind_eq_some_iff.mp h
    obtain ⟨ak, _, hLast⟩ := Option.bind_eq_some_iff.mp hRest
    cases hLast
    rw [List.length_set, List.length_set]
    exact ⟨(List.getElem?_eq_some_iff.mp ht).1, rfl⟩
  · rename_i hSame
    cases h
    exact ⟨not_not.mp hSame ▸ hk, rfl⟩

theorem exchangeAll_some {place : Nat → Nat} {a b : List α} (h : exchangeAll place a = some b) :
    ∀ k < a.length, place k < a.length := by
  have hTurns : ∀ l : List Nat, (∀ k ∈ l, k < a.length) → ∀ a', a'.length = a.length →
      l.foldlM (fun a k => exchangeElems a k (place k)) a' = some b → ∀ k ∈ l, place k < a.length := by
    intro l
    induction l with
    | nil => exact fun _ _ _ _ k hk => absurd hk List.not_mem_nil
    | cons k l ih =>
      intro hInside a' hLength hRun
      rw [List.foldlM_cons] at hRun
      obtain ⟨next, hTurn, hRest⟩ := Option.bind_eq_some_iff.mp hRun
      have hk := hInside k List.mem_cons_self
      obtain ⟨hPlace, hSame⟩ := exchangeElems_some (hLength ▸ hk) hTurn
      rw [List.forall_mem_cons]
      exact ⟨hLength ▸ hPlace, ih (fun j hj => hInside j (List.mem_cons_of_mem k hj)) next
        (hSame.trans hLength) hRest⟩
  have hRange : ∀ k ∈ List.range a.length, k < a.length := fun k hk => List.mem_range.mp hk
  exact fun k hk => hTurns _ hRange a rfl h k (List.mem_range.mpr hk)

variable {st : MrgState}

/-- The places that are drawn where no double is 1. -/
def drawnPlaces (hSize : n ≤ 2 ^ 53) (hBelow : ∀ k < n, ¬ DrawsOne st k) : Places (Fin n) :=
  fun k => ⟨⟨placeAt n st k, (placeAt_lt_iff hSize k.isLt).mpr (hBelow k k.isLt)⟩, le_placeAt n st k⟩

theorem randpermute_ofFn (hSize : n ≤ 2 ^ 53) (hBelow : ∀ k < n, ¬ DrawsOne st k) (a : Fin n → α) :
    randpermute (List.ofFn a) st =
      some (List.ofFn (a ∘ exchanges (drawnPlaces hSize hBelow) (List.finRange n))) := by
  rw [randpermute_eq, List.length_ofFn]
  exact exchangeAll_ofFn (fun _ => rfl) a

theorem randpermute_eq_none {a : List α} (hSize : a.length ≤ 2 ^ 53) :
    randpermute a st = none ↔ ∃ k < a.length, DrawsOne st k := by
  constructor
  · intro hNone
    by_contra hBelow
    simp only [not_exists, not_and] at hBelow
    have hSome := randpermute_ofFn hSize hBelow a.get
    rw [List.ofFn_get, hNone] at hSome
    cases hSome
  · rintro ⟨k, hk, hOne⟩
    rw [randpermute_eq, Option.eq_none_iff_forall_ne_some]
    intro b hSome
    exact (placeAt_lt_iff hSize hk).mp (exchangeAll_some hSome k hk) hOne

/-- The loop leaves the array exactly where a double is 1. Where none is, it makes the exchanges with the
places that are drawn, and each rearrangement of the elements comes from one sequence of places alone. -/
theorem randpermute_unique (hSize : n ≤ 2 ^ 53) :
    (∀ (st : MrgState) (α : Type) (a : List α), a.length = n →
      (randpermute a st = none ↔ ∃ k < n, DrawsOne st k)) ∧
    (∀ st : MrgState, (∀ k < n, ¬ DrawsOne st k) →
      ∃ places : Places (Fin n), (∀ k, (places k).val.val = placeAt n st k) ∧
        ∀ (α : Type) (a : Fin n → α), randpermute (List.ofFn a) st =
          some (List.ofFn (a ∘ exchanges places (List.finRange n)))) ∧
    ∀ σ : Equiv.Perm (Fin n), ∃! places : Places (Fin n), exchanges places (List.finRange n) = σ := by
  refine ⟨?_, ?_, ?_⟩
  · rintro st α a rfl
    exact randpermute_eq_none hSize
  · intro st hBelow
    exact ⟨drawnPlaces hSize hBelow, fun _ => rfl, fun _ a => randpermute_ofFn hSize hBelow a⟩
  · intro σ
    have hSorted : (List.finRange n).Pairwise (· < ·) := List.pairwise_lt_finRange n
    obtain ⟨places, hPlaces⟩ := exists_places hSorted σ fun i hi => absurd (List.mem_finRange i) hi
    refine ⟨places, hPlaces, fun second hSecond => ?_⟩
    funext k
    exact places_eq hSorted (hSecond.trans hPlaces.symm) k (List.mem_finRange k)

theorem randpermute_three :
    (∀ (st : MrgState) (α : Type) (a : List α), a.length = 3 →
      (randpermute a st = none ↔ ∃ k < 3, DrawsOne st k)) ∧
    (∀ st : MrgState, (∀ k < 3, ¬ DrawsOne st k) →
      ∃ places : Places (Fin 3), (∀ k, (places k).val.val = placeAt 3 st k) ∧
        ∀ (α : Type) (a : Fin 3 → α), randpermute (List.ofFn a) st =
          some (List.ofFn (a ∘ exchanges places (List.finRange 3)))) ∧
    ∀ σ : Equiv.Perm (Fin 3), ∃! places : Places (Fin 3), exchanges places (List.finRange 3) = σ :=
  randpermute_unique (by decide)

end Permutations

section Renaming

variable {maxNvtx : Nat}

/-- The new label of a vertex. -/
def renamed (σ : Equiv.Perm (Fin maxNvtx)) (v : Nat) : Nat := if h : v < maxNvtx then (σ ⟨v, h⟩).val else v

theorem renamed_bijOn (σ : Equiv.Perm (Fin maxNvtx)) :
    Set.BijOn (renamed σ) (Set.Iio maxNvtx) (Set.Iio maxNvtx) := by
  have hRenamed : ∀ v : Fin maxNvtx, renamed σ v = (σ v).val := fun v => dif_pos v.isLt
  refine ⟨?_, ?_, ?_⟩
  · intro v hv
    rw [hRenamed ⟨v, hv⟩]
    exact Fin.isLt _
  · intro v hv w hw hSame
    rw [hRenamed ⟨v, hv⟩, hRenamed ⟨w, hw⟩] at hSame
    exact congrArg Fin.val (σ.injective (Fin.ext hSame))
  · intro w hw
    obtain ⟨v, hv⟩ := σ.surjective ⟨w, hw⟩
    refine ⟨v.val, v.isLt, ?_⟩
    rw [hRenamed v, hv]

variable {edges : List PackedEdge} {st st' : MrgState}

/-- Every edge gets the new labels of its vertices. -/
theorem relabelEdges_eq (hWords : maxNvtx ≤ 2 ^ 32) (σ : Equiv.Perm (Fin maxNvtx)) {newlabel : List Nat}
    (hLabels : newlabel = List.ofFn fun v => (σ v).val) (hInside : ∀ e ∈ edges, e.i < maxNvtx ∧ e.j < maxNvtx) :
    ∃ relabeled, (edges.mapM fun e => do
      let v0 : Nat ← newlabel[e.i]?
      let v1 : Nat ← newlabel[e.j]?
      some (writeEdge v0 v1)) = some relabeled ∧
      relabeled.map (fun e => (e.i, e.j)) = edges.map fun e => (renamed σ e.i, renamed σ e.j) := by
  have hLabel : ∀ v (hv : v < maxNvtx), newlabel[v]? = some (renamed σ v) := by
    intro v hv
    rw [hLabels, List.getElem?_ofFn, dif_pos hv, renamed, dif_pos hv]
  have hFits : ∀ v < maxNvtx, (0 : Int) ≤ renamed σ v ∧ (renamed σ v : Int) < 2 ^ 32 := by
    intro v hv
    have hSmall : renamed σ v < maxNvtx := (renamed_bijOn σ).mapsTo hv
    omega
  induction edges with
  | nil => exact ⟨[], rfl, rfl⟩
  | cons e edges ih =>
    obtain ⟨relabeled, hRest, hEnds⟩ := ih fun e' he' => hInside e' (List.mem_cons_of_mem e he')
    obtain ⟨hFirst, hSecond⟩ := hInside e List.mem_cons_self
    obtain ⟨hi, hj⟩ := writeEdge_fits (hFits e.i hFirst) (hFits e.j hSecond)
    refine ⟨writeEdge (renamed σ e.i) (renamed σ e.j) :: relabeled, ?_, ?_⟩
    · rw [List.mapM_cons, hRest, hLabel e.i hFirst, hLabel e.j hSecond]
      rfl
    · rw [List.map_cons, List.map_cons, hEnds, Int.natCast_inj.mp hi, Int.natCast_inj.mp hj]

theorem permuteVertexLabels_eq (hWords : maxNvtx ≤ 2 ^ 32) (hBelow : ∀ k < maxNvtx, ¬ DrawsOne st k)
    (hInside : ∀ e ∈ edges, e.i < maxNvtx ∧ e.j < maxNvtx) :
    ∃ (σ : Equiv.Perm (Fin maxNvtx)) (relabeled : List PackedEdge),
      permuteVertexLabels edges maxNvtx st = some relabeled ∧
        relabeled.map (fun e => (e.i, e.j)) = edges.map fun e => (renamed σ e.i, renamed σ e.j) := by
  have hSize : maxNvtx ≤ 2 ^ 53 := hWords.trans (by decide)
  have hRange : List.range maxNvtx = List.ofFn fun v : Fin maxNvtx => v.val := by
    rw [← List.map_coe_finRange_eq_range, List.ofFn_eq_map]
  obtain ⟨relabeled, hEdges, hEnds⟩ := relabelEdges_eq hWords
    (exchanges (drawnPlaces hSize hBelow) (List.finRange maxNvtx)) rfl hInside
  refine ⟨_, relabeled, ?_, hEnds⟩
  rw [permuteVertexLabels, hRange, randpermute_ofFn hSize hBelow]
  exact hEdges

theorem permuteEdgelist_perm (hSize : edges.length ≤ 2 ^ 53) {result : List PackedEdge}
    (h : permuteEdgelist edges st = some result) : result.Perm edges := by
  have hBelow : ∀ k < edges.length, ¬ DrawsOne st k := by
    intro k hk hOne
    have hNone := (randpermute_eq_none hSize).mpr ⟨k, hk, hOne⟩
    rw [permuteEdgelist, hNone] at h
    cases h
  have hSome := randpermute_ofFn hSize hBelow edges.get
  rw [List.ofFn_get, ← permuteEdgelist, h, Option.some_inj] at hSome
  have hPerm := Equiv.Perm.ofFn_comp_perm (exchanges (drawnPlaces hSize hBelow) (List.finRange edges.length))
    edges.get
  rw [List.ofFn_get] at hPerm
  exact hSome ▸ hPerm

/-- The two permutations leave the graph as it is, but for the names of the vertices; they leave an array
exactly where a double is 1. -/
theorem permuted_graph (hWords : maxNvtx ≤ 2 ^ 32) (hSize : edges.length ≤ 2 ^ 53)
    (hInside : ∀ e ∈ edges, e.i < maxNvtx ∧ e.j < maxNvtx) (st st' : MrgState) :
    (permuteGraph edges maxNvtx st st' = none ↔
      (∃ k < maxNvtx, DrawsOne st k) ∨ ∃ k < edges.length, DrawsOne st' k) ∧
    ∀ result, permuteGraph edges maxNvtx st st' = some result →
      ∃ f : Nat → Nat, Set.BijOn f (Set.Iio maxNvtx) (Set.Iio maxNvtx) ∧
        (result.map fun e => (e.i, e.j)).Perm (edges.map fun e => (f e.i, f e.j)) := by
  by_cases hLabels : ∃ k < maxNvtx, DrawsOne st k
  · have hNone : permuteGraph edges maxNvtx st st' = none := by
      have hRange : (List.range maxNvtx).length = maxNvtx := List.length_range
      have hDrawn := (randpermute_eq_none (hRange.le.trans (hWords.trans (by decide)))).mpr
        (hRange.symm ▸ hLabels : ∃ k < (List.range maxNvtx).length, DrawsOne st k)
      rw [permuteGraph, permuteVertexLabels, hDrawn]
      rfl
    rw [hNone]
    exact ⟨iff_of_true rfl (Or.inl hLabels), nofun⟩
  · have hBelow : ∀ k < maxNvtx, ¬ DrawsOne st k := by simpa using hLabels
    obtain ⟨σ, relabeled, hRelabeled, hEnds⟩ := permuteVertexLabels_eq hWords hBelow hInside
    have hLength : relabeled.length = edges.length := by
      simpa using congrArg List.length hEnds
    have hGraph : permuteGraph edges maxNvtx st st' = permuteEdgelist relabeled st' := by
      rw [permuteGraph, hRelabeled]
      rfl
    rw [hGraph]
    constructor
    · rw [permuteEdgelist, randpermute_eq_none (hLength ▸ hSize), hLength, or_iff_right hLabels]
    · intro result hResult
      refine ⟨renamed σ, renamed_bijOn σ, ?_⟩
      rw [← hEnds]
      exact (permuteEdgelist_perm (hLength ▸ hSize) hResult).map _

/-- The edge from 0 to 1, with the states that two seeds make. -/
theorem permuted_edge :
    (permuteGraph [writeEdge 0 1] 3 ⟨1, 2, 3, 4, 5⟩ ⟨6, 7, 8, 9, 10⟩ = none ↔
      (∃ k < 3, DrawsOne ⟨1, 2, 3, 4, 5⟩ k) ∨ ∃ k < 1, DrawsOne ⟨6, 7, 8, 9, 10⟩ k) ∧
    ∀ result, permuteGraph [writeEdge 0 1] 3 ⟨1, 2, 3, 4, 5⟩ ⟨6, 7, 8, 9, 10⟩ = some result →
      ∃ f : Nat → Nat, Set.BijOn f (Set.Iio 3) (Set.Iio 3) ∧
        (result.map fun e => (e.i, e.j)).Perm ([writeEdge 0 1].map fun e => (f e.i, f e.j)) :=
  permuted_graph (by decide) (by decide) (fun e he => by
    rw [List.mem_singleton.mp he]
    decide) ⟨1, 2, 3, 4, 5⟩ ⟨6, 7, 8, 9, 10⟩

end Renaming

end Trident.Graph500
