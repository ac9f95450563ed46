import Mathlib.Data.List.Induction
import Mathlib.Order.WellFounded

/-! # Loops over arrays

Counting loops, searching loops and single stores of C code, with `none` for an
access outside the array. The rules describe an array by the pieces a loop moves.
-/

namespace Trident.Loops

section Statements

variable {α σ : Type*}

/-- `l[i] = v;` -/
def store (l : List α) (i : Nat) (v : α) : Option (List α) :=
  if i < l.length then some (l.set i v) else none

/-- `dst[i] = src[j];` -/
def copyCell (dst : List α) (i : Nat) (src : List α) (j : Nat) : Option (List α) :=
  src[j]?.bind fun v => store dst i v

/-- `count` turns of a loop whose counter goes up from `i`. -/
def forUp (body : Nat → σ → Option σ) : Nat → Nat → σ → Option σ
  | _, 0, s => some s
  | i, count + 1, s => (body i s).bind fun s => forUp body (i + 1) count s

/-- `count` turns of a loop whose counter goes down to `lo + 1`. -/
def forDown (body : Nat → σ → Option σ) (lo : Nat) : Nat → σ → Option σ
  | 0, s => some s
  | count + 1, s => (body (lo + count + 1) s).bind fun s => forDown body lo count s

/-- `while (i < i + count && cond(i)) i++;` -/
def scan (cond : Nat → Option Bool) : Nat → Nat → Option Nat
  | i, 0 => some i
  | i, count + 1 => (cond i).bind fun go => if go then scan cond (i + 1) count else some i

/-- A `while` loop with `fuel` for its turns; `turn` gives `none` where the condition fails. -/
def whileLoop (turn : σ → Option σ) : Nat → σ → Option σ
  | 0, _ => none
  | fuel + 1, s =>
    match turn s with
    | none => some s
    | some s' => whileLoop turn fuel s'

end Statements

section Rules

variable {α σ : Type*}

theorem whileLoop_unique {turn : σ → Option σ} {fuel fuel' : Nat} {s a b : σ}
    (ha : whileLoop turn fuel s = some a) (hb : whileLoop turn fuel' s = some b) : a = b := by
  induction fuel generalizing fuel' s with
  | zero => cases ha
  | succ fuel ih =>
    cases fuel' with
    | zero => cases hb
    | succ fuel' =>
      rw [whileLoop] at ha hb
      cases hTurn : turn s with
      | none =>
        rw [hTurn] at ha hb
        cases ha
        cases hb
        rfl
      | some s' =>
        rw [hTurn] at ha hb
        exact ih ha hb

theorem whileLoop_mono {turn : σ → Option σ} {fuel fuel' : Nat} {s a : σ}
    (h : whileLoop turn fuel s = some a) (hLe : fuel ≤ fuel') : whileLoop turn fuel' s = some a := by
  induction fuel generalizing fuel' s with
  | zero => cases h
  | succ fuel ih =>
    obtain ⟨fuel', rfl⟩ := Nat.exists_eq_add_of_lt hLe
    rw [whileLoop] at h ⊢
    cases hTurn : turn s with
    | none =>
      rw [hTurn] at h
      exact h
    | some s' =>
      rw [hTurn] at h
      exact ih h (Nat.le_add_right fuel fuel')

/-- What every turn keeps holds at the end, where no turn is left. -/
theorem whileLoop_spec {turn : σ → Option σ} {I : σ → Prop}
    (hTurn : ∀ s s', I s → turn s = some s' → I s') {fuel : Nat} {s a : σ} (hs : I s)
    (h : whileLoop turn fuel s = some a) : I a ∧ turn a = none := by
  induction fuel generalizing s with
  | zero => cases h
  | succ fuel ih =>
    rw [whileLoop] at h
    cases hNext : turn s with
    | none =>
      rw [hNext] at h
      cases h
      exact ⟨hs, hNext⟩
    | some s' =>
      rw [hNext] at h
      exact ih (hTurn s s' hs hNext) h

/-- A loop whose turns keep an invariant and lower a rank comes to its end. -/
theorem whileLoop_ends {β : Type*} [LT β] [WellFoundedLT β] {turn : σ → Option σ} {I : σ → Prop}
    (rank : σ → β) (hTurn : ∀ s s', I s → turn s = some s' → I s' ∧ rank s' < rank s) {s : σ}
    (hs : I s) : ∃ fuel s', whileLoop turn fuel s = some s' ∧ I s' ∧ turn s' = none := by
  obtain ⟨r, hr⟩ : ∃ r, rank s = r := ⟨_, rfl⟩
  induction r using WellFoundedLT.induction generalizing s with
  | ind r ih =>
    cases hNext : turn s with
    | none => exact ⟨1, s, by rw [whileLoop, hNext], hs, hNext⟩
    | some s' =>
      obtain ⟨hs', hLess⟩ := hTurn s s' hs hNext
      obtain ⟨fuel, last, hLoop, hLast⟩ := ih (rank s') (hr ▸ hLess) hs' rfl
      refine ⟨fuel + 1, last, ?_, hLast⟩
      rw [whileLoop, hNext]
      exact hLoop

theorem forUp_add (body : Nat → σ → Option σ) (i m n : Nat) (s : σ) :
    forUp body i (m + n) s = (forUp body i m s).bind (forUp body (i + m) n) := by
  induction m generalizing i s with
  | zero => rw [Nat.zero_add, forUp, Option.bind_some, Nat.add_zero]
  | succ m ih =>
    rw [show m + 1 + n = m + n + 1 by omega, forUp, forUp, Option.bind_assoc]
    apply congrArg
    funext t
    rw [ih, show i + 1 + m = i + (m + 1) by omega]

/-- What every turn keeps holds where the loop ends. -/
theorem forUp_invariant {f : Nat → σ → Option σ} {I : Nat → σ → Prop} {i m : Nat} {s s' : σ}
    (hTurn : ∀ k s s', i ≤ k → k < i + m → I k s → f k s = some s' → I (k + 1) s') (hs : I i s)
    (hLoop : forUp f i m s = some s') : I (i + m) s' := by
  induction m generalizing i s with
  | zero =>
    cases hLoop
    exact hs
  | succ m ih =>
    obtain ⟨s₁, hFirst, hLoop⟩ := Option.bind_eq_some_iff.mp hLoop
    rw [show i + (m + 1) = i + 1 + m by omega]
    exact ih (fun k s s' hLow hHigh => hTurn k s s' (by omega) (by omega))
      (hTurn i s s₁ (Nat.le_refl i) (by omega) hs hFirst) hLoop

theorem forUp_total {f : Nat → σ → Option σ} {I : Nat → σ → Prop} {i m : Nat} {s : σ}
    (hTurn : ∀ k s, i ≤ k → k < i + m → I k s → ∃ s', f k s = some s' ∧ I (k + 1) s') (hs : I i s) :
    ∃ s', forUp f i m s = some s' ∧ I (i + m) s' := by
  induction m generalizing i s with
  | zero => exact ⟨s, rfl, hs⟩
  | succ m ih =>
    obtain ⟨s₁, hFirst, hNext⟩ := hTurn i s (Nat.le_refl i) (by omega) hs
    rw [forUp, hFirst, Option.bind_some, show i + (m + 1) = i + 1 + m by omega]
    exact ih (fun k s hLow hHigh => hTurn k s (by omega) (by omega)) hNext

/-- A loop whose body treats two variables apart is two loops. -/
theorem forUp_pair {τ : Type*} {f : Nat → σ → Option σ} {g : Nat → τ → Option τ} {i m : Nat}
    {s s' : σ} {t t' : τ} (hf : forUp f i m s = some s') (hg : forUp g i m t = some t') :
    forUp (fun i st => (f i st.1).bind fun s => (g i st.2).bind fun t => some (s, t))
      i m (s, t) =
      some (s', t') := by
  induction m generalizing i s t with
  | zero =>
    cases hf
    cases hg
    rfl
  | succ m ih =>
    obtain ⟨s₁, hFirst, hf⟩ := Option.bind_eq_some_iff.mp hf
    obtain ⟨t₁, hFirst', hg⟩ := Option.bind_eq_some_iff.mp hg
    simp only [forUp, hFirst, hFirst', Option.bind_some]
    exact ih hf hg

theorem scan_stops {cond : Nat → Option Bool} (n : Nat) {i count : Nat}
    (hGo : ∀ k < n, cond (i + k) = some true)
    (hStop : n = count ∨ n < count ∧ cond (i + n) = some false) :
    scan cond i count = some (i + n) := by
  induction n generalizing i count with
  | zero =>
    cases count with
    | zero => rfl
    | succ count =>
      obtain hEnd | ⟨_, hFalse⟩ := hStop
      · omega
      · rw [Nat.add_zero] at hFalse
        rw [scan, hFalse]
        rfl
  | succ n ih =>
    cases count with
    | zero => omega
    | succ count =>
      have hFirst : cond i = some true := hGo 0 (Nat.succ_pos n)
      have hRest : scan cond (i + 1) count = some (i + 1 + n) := by
        apply ih
        · intro k hk
          rw [show i + 1 + k = i + (k + 1) by omega]
          exact hGo (k + 1) (by omega)
        · rw [show i + 1 + n = i + (n + 1) by omega]
          exact hStop.imp (fun h => by omega) fun h => ⟨by omega, h.2⟩
      rw [scan, hFirst]
      exact hRest.trans (congrArg some (by omega))

end Rules

section Arrays

variable {α : Type*}

theorem store_append (A : List α) (x : α) (B : List α) (v : α) :
    store (A ++ x :: B) A.length v = some (A ++ v :: B) := by
  rw [store, if_pos (by simp)]
  simp

theorem store_eq {l A B : List α} {x : α} (h : l = A ++ x :: B) {i : Nat} (hi : i = A.length)
    (v : α) : store l i v = some (A ++ v :: B) := by
  subst h
  subst hi
  exact store_append A x B v

theorem getElem?_eq {l A B : List α} {x : α} (h : l = A ++ x :: B) {i : Nat}
    (hi : i = A.length) : l[i]? = some x := by
  subst h
  subst hi
  simp

theorem copyCell_eq {dst A B src P Q : List α} {x y : α} {i j : Nat} (hDst : dst = A ++ x :: B)
    (hi : i = A.length) (hSrc : src = P ++ y :: Q) (hj : j = P.length) :
    copyCell dst i src j = some (A ++ y :: B) := by
  rw [copyCell, getElem?_eq hSrc hj]
  exact store_eq hDst hi y

/-- A search through an array stops behind the cells that pass the test. -/
theorem scan_list {l P Q : List α} {test : α → Bool} {count : Nat} (h : l = P ++ Q)
    (hGo : ∀ a ∈ P, test a = true)
    (hStop : P.length = count ∨ P.length < count ∧ ∃ b Q', Q = b :: Q' ∧ test b = false) :
    scan (fun i => l[i]?.map test) 0 count = some P.length := by
  have hScan : scan (fun i => l[i]?.map test) 0 count = some (0 + P.length) := by
    refine scan_stops P.length (fun k hk => ?_)
      (hStop.imp_right fun ⟨hLt, b, Q', hQ, hb⟩ => ⟨hLt, ?_⟩)
    · have hCell : l[0 + k]? = some P[k] := by
        rw [h, Nat.zero_add, List.getElem?_append_left hk, List.getElem?_eq_getElem hk]
      rw [hCell, Option.map_some, hGo _ (List.getElem_mem hk)]
    · have hCell : l[0 + P.length]? = some b := getElem?_eq (h.trans (congrArg _ hQ)) (Nat.zero_add _)
      rw [hCell, Option.map_some, hb]
  rwa [Nat.zero_add] at hScan

/-- A loop that moves `B` one place up leaves a gap in front of it. -/
theorem forDown_shift {f : Nat → List α → Option (List α)} (A B : List α) (x : α)
    (J : List α) {i : Nat} (hBody : ∀ k < B.length, ∀ l,
      f (i + k + 1) l = copyCell l (A.length + k + 1) l (A.length + k)) :
    ∃ y, forDown f i B.length (A ++ B ++ x :: J) = some (A ++ y :: (B ++ J)) := by
  induction B using List.reverseRecOn generalizing x J with
  | nil => exact ⟨x, by simp [forDown]⟩
  | append_singleton B b ih =>
    have hFirst : f (i + B.length + 1) (A ++ (B ++ [b]) ++ x :: J) =
        some (A ++ B ++ b :: (b :: J)) := by
      rw [hBody B.length (by simp)]
      have hTo : A ++ (B ++ [b]) ++ x :: J = (A ++ (B ++ [b])) ++ x :: J := rfl
      have hFrom : A ++ (B ++ [b]) ++ x :: J = (A ++ B) ++ b :: (x :: J) := by simp
      rw [copyCell_eq hTo (by simp; omega) hFrom (by simp)]
      simp
    obtain ⟨y, hRest⟩ := ih b (b :: J) fun k hk l => hBody k (by simp; omega) l
    refine ⟨y, ?_⟩
    rw [List.length_append, List.length_singleton, forDown, hFirst]
    simpa using hRest

/-- A loop that moves `B` one place down overwrites the cell in front of it. -/
theorem forUp_shift {f : Nat → List α → Option (List α)} (A B : List α) (x : α)
    (J : List α) {i : Nat} (hBody : ∀ k < B.length, ∀ l,
      f (i + k) l = copyCell l (A.length + k) l (A.length + k + 1)) :
    ∃ y, forUp f i B.length (A ++ x :: (B ++ J)) = some (A ++ B ++ y :: J) := by
  induction B generalizing A x i with
  | nil => exact ⟨x, by simp [forUp]⟩
  | cons b B ih =>
    have hFirst : f i (A ++ x :: (b :: B ++ J)) = some ((A ++ [b]) ++ b :: (B ++ J)) := by
      have h : f i _ = _ := hBody 0 (Nat.succ_pos _) (A ++ x :: (b :: B ++ J))
      have hFrom : A ++ x :: (b :: B ++ J) = (A ++ [x]) ++ b :: (B ++ J) := by simp
      rw [h, copyCell_eq rfl (Nat.add_zero _) hFrom (by simp)]
      simp
    obtain ⟨y, hRest⟩ := ih (A ++ [b]) b fun k hk l => by
      have h := hBody (k + 1) (Nat.succ_lt_succ hk) l
      rw [show i + 1 + k = i + (k + 1) by omega, h, List.length_append, List.length_singleton,
        show A.length + (k + 1) = A.length + 1 + k by omega]
    refine ⟨y, ?_⟩
    rw [List.length_cons, forUp, hFirst]
    simpa using hRest

theorem forUp_copy {f : Nat → List α → Option (List α)} {src : List α} (P S Q D X J : List α)
    {i : Nat} (hSrc : src = P ++ S ++ Q) (hLength : X.length = S.length)
    (hBody : ∀ k < S.length, ∀ l, f (i + k) l = copyCell l (D.length + k) src (P.length + k)) :
    forUp f i S.length (D ++ X ++ J) = some (D ++ S ++ J) := by
  induction S generalizing P D X i with
  | nil =>
    rw [List.length_nil, List.length_eq_zero_iff] at hLength
    rw [hLength]
    rfl
  | cons s S ih =>
    cases X with
    | nil => simp at hLength
    | cons x X =>
      have hFirst : f i (D ++ (x :: X) ++ J) = some ((D ++ [s]) ++ X ++ J) := by
        have h : f i _ = _ := hBody 0 (Nat.succ_pos _) (D ++ (x :: X) ++ J)
        have hFrom : src = P ++ s :: (S ++ Q) := by simp [hSrc]
        have hTo : D ++ (x :: X) ++ J = D ++ x :: (X ++ J) := by simp
        rw [h, copyCell_eq hTo (Nat.add_zero _) hFrom (Nat.add_zero _)]
        simp
      have hRest := ih (P ++ [s]) (D ++ [s]) X (by simp [hSrc]) (Nat.succ.inj hLength)
        (i := i + 1) fun k hk l => by
          have h := hBody (k + 1) (Nat.succ_lt_succ hk) l
          rw [show i + 1 + k = i + (k + 1) by omega, h]
          simp only [List.length_append, List.length_singleton]
          rw [show D.length + (k + 1) = D.length + 1 + k by omega,
            show P.length + (k + 1) = P.length + 1 + k by omega]
      rw [List.length_cons, forUp, hFirst]
      simpa using hRest

theorem forUp_fill {f : Nat → List α → Option (List α)} (A X J : List α) (v : α) {i : Nat}
    (hBody : ∀ k < X.length, ∀ l, f (i + k) l = store l (A.length + k) v) :
    forUp f i X.length (A ++ X ++ J) = some (A ++ List.replicate X.length v ++ J) := by
  induction X generalizing A i with
  | nil => rfl
  | cons x X ih =>
    have hFirst : f i (A ++ (x :: X) ++ J) = some ((A ++ [v]) ++ X ++ J) := by
      have h : f i _ = _ := hBody 0 (Nat.succ_pos _) (A ++ (x :: X) ++ J)
      have hTo : A ++ (x :: X) ++ J = A ++ x :: (X ++ J) := by simp
      rw [h, store_eq hTo (Nat.add_zero _)]
      simp
    have hRest := ih (A ++ [v]) (i := i + 1) fun k hk l => by
      have h := hBody (k + 1) (Nat.succ_lt_succ hk) l
      rw [show i + 1 + k = i + (k + 1) by omega, h]
      simp only [List.length_append, List.length_singleton]
      rw [show A.length + (k + 1) = A.length + 1 + k by omega]
    rw [List.length_cons, forUp, hFirst, List.replicate_succ]
    simpa using hRest

/-- A loop that copies `A` and `B` and leaves one cell free between them. -/
theorem forUp_gapped {f : Nat → List α → Option (List α)} {src dst : List α}
    (A B Q X Y J : List α) (x : α) (hSrc : src = A ++ B ++ Q) (hDst : dst = X ++ x :: (Y ++ J))
    (hX : X.length = A.length) (hY : Y.length = B.length)
    (hBody : ∀ i l, f i l = copyCell l (if i < A.length then i else i + 1) src i) :
    forUp f 0 (A.length + B.length) dst = some (A ++ x :: (B ++ J)) := by
  have hFirst : forUp f 0 A.length ([] ++ X ++ (x :: (Y ++ J))) =
      some ([] ++ A ++ x :: (Y ++ J)) := by
    apply forUp_copy [] A (B ++ Q) [] X (x :: (Y ++ J)) (hSrc.trans (by simp)) hX
    intro k hk l
    rw [hBody, if_pos (by omega), List.length_nil]
  have hSecond : forUp f A.length B.length ((A ++ [x]) ++ Y ++ J) = some ((A ++ [x]) ++ B ++ J) := by
    apply forUp_copy A B Q (A ++ [x]) Y J hSrc hY
    intro k hk l
    rw [hBody, if_neg (by omega), List.length_append, List.length_singleton]
    congr 1
    omega
  rw [List.nil_append, List.nil_append, ← hDst] at hFirst
  rw [forUp_add, hFirst, Option.bind_some, Nat.zero_add]
  simpa using hSecond

end Arrays

end Trident.Loops
