import Mathlib.Data.List.Infix

/-! # Shell patterns

The pattern language of `[[ text = pattern ]]` as far as `*` goes: a star
stands for any text, every other character for itself.
-/

namespace Trident.Glob

def accepts : List Char → List Char → Bool
  | [], s => s.isEmpty
  | c :: p, s =>
    if c = '*' then s.tails.any (accepts p)
    else match s with
      | [] => false
      | d :: s => c == d && accepts p s

def globMatch (pattern text : String) : Bool := accepts pattern.toList text.toList

@[simp] theorem accepts_nil (s : List Char) : accepts [] s = true ↔ s = [] := by
  simp [accepts]

theorem accepts_star_iff (p s : List Char) :
    accepts ('*' :: p) s = true ↔ ∃ a t, s = a ++ t ∧ accepts p t = true := by
  simp only [accepts, if_true, List.any_eq_true, List.mem_tails]
  constructor
  · rintro ⟨t, ⟨a, rfl⟩, ht⟩
    exact ⟨a, t, rfl, ht⟩
  · rintro ⟨a, t, rfl, ht⟩
    exact ⟨t, List.suffix_append a t, ht⟩

theorem accepts_cons_iff {c : Char} (hc : c ≠ '*') (p s : List Char) :
    accepts (c :: p) s = true ↔ ∃ t, s = c :: t ∧ accepts p t = true := by
  cases s with
  | nil => simp [accepts, hc]
  | cons d s =>
    simp only [accepts, if_neg hc, Bool.and_eq_true, beq_iff_eq, List.cons.injEq]
    constructor
    · rintro ⟨rfl, h⟩
      exact ⟨s, ⟨rfl, rfl⟩, h⟩
    · rintro ⟨t, ⟨rfl, rfl⟩, h⟩
      exact ⟨rfl, h⟩

@[simp] theorem accepts_star_nil (s : List Char) : accepts ['*'] s = true :=
  (accepts_star_iff [] s).mpr ⟨s, [], by simp, by simp⟩

theorem accepts_literal (w p s : List Char) (hw : '*' ∉ w) :
    accepts (w ++ p) (w ++ s) = accepts p s := by
  induction w with
  | nil => rfl
  | cons c w ih =>
    obtain ⟨hc, hw⟩ := not_or.mp (fun h => hw (List.mem_cons.mpr h))
    simp [accepts, Ne.symm hc, ih hw]

/-- Every plain character of a pattern occurs in each text it accepts. -/
theorem mem_of_accepts {p s : List Char} (h : accepts p s = true) {c : Char} (hp : c ∈ p)
    (hc : c ≠ '*') : c ∈ s := by
  induction p generalizing s with
  | nil => cases hp
  | cons d p ih =>
    by_cases hd : d = '*'
    · subst hd
      obtain ⟨a, t, rfl, ht⟩ := (accepts_star_iff p s).mp h
      rcases List.mem_cons.mp hp with rfl | hp
      · exact absurd rfl hc
      · exact List.mem_append_right a (ih ht hp)
    · obtain ⟨t, rfl, ht⟩ := (accepts_cons_iff hd p s).mp h
      rcases List.mem_cons.mp hp with rfl | hp
      · exact List.mem_cons_self
      · exact List.mem_cons_of_mem d (ih ht hp)

/-- `*w*` accepts exactly the texts that contain `w`. -/
theorem accepts_contains_iff (w s : List Char) (hw : '*' ∉ w) :
    accepts ('*' :: (w ++ ['*'])) s = true ↔ w <:+: s := by
  rw [accepts_star_iff]
  constructor
  · rintro ⟨a, t, rfl, ht⟩
    suffices ∃ r, t = w ++ r by
      obtain ⟨r, rfl⟩ := this
      exact ⟨a, r, by simp⟩
    induction w generalizing t with
    | nil => exact ⟨t, rfl⟩
    | cons c w ih =>
      obtain ⟨hc, hw⟩ := not_or.mp (fun h => hw (List.mem_cons.mpr h))
      obtain ⟨t, rfl, hw'⟩ := (accepts_cons_iff (Ne.symm hc) _ _).mp ht
      obtain ⟨r, rfl⟩ := ih hw t hw'
      exact ⟨r, rfl⟩
  · rintro ⟨a, r, rfl⟩
    refine ⟨a, w ++ r, by simp, ?_⟩
    rw [accepts_literal w ['*'] r hw, accepts_star_nil]

/-- Two words in the order of the pattern are enough for `*w*v*`. -/
theorem accepts_contains_two {w v : List Char} (hw : '*' ∉ w) (hv : '*' ∉ v) (m r : List Char) :
    accepts ('*' :: (w ++ '*' :: (v ++ ['*']))) (w ++ (m ++ (v ++ r))) = true := by
  refine (accepts_star_iff _ _).mpr ⟨[], w ++ (m ++ (v ++ r)), rfl, ?_⟩
  rw [accepts_literal w _ _ hw]
  refine (accepts_star_iff _ _).mpr ⟨m, v ++ r, rfl, ?_⟩
  rw [accepts_literal v _ _ hv, accepts_star_nil]

end Trident.Glob
