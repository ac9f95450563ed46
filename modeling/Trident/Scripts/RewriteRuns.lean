import Mathlib.Data.List.Perm.Basic
import Trident.Lib.Transition
import Trident.Scripts.RewriteOrder

/-! # The runs of `rewrite_config`

A run walks over the document, then carries the new `cpu` to the end. Where a
child is out of order, one that should have been rewritten is passed as it was,
or `cputune` is parted from `vcpu`, and no later visit makes up for it.
-/

namespace Trident.Scripts.VmConfigs

open Cursor Transition Relation

/-- Each child that the loop rewrites stands once. -/
def Single (main : List Element) : Prop := ∀ tag ∈ rewrittenTags, (tags main).count tag = 1

section Run

variable {host : Host} {config : Config} {D : List Element}

def MemoryGood (config : Config) (D : List Element) : Prop :=
  MemoryOrderly config (before "currentMemory" (tags D)) (behind "currentMemory" (tags D))

def VcpuGood (D : List Element) : Prop :=
  VcpuOrderly (before "vcpu" (tags D)) (behind "vcpu" (tags D))

/-- The children passed were met in good order. -/
structure Sound (host : Host) (config : Config) (D pre : List Element) : Prop where
  memory : "currentMemory" ∈ tags pre → MemoryGood config D
  vcpu : "vcpu" ∈ tags pre → VcpuGood D ∧ ∃ pins, vcpupins host host.vcpuCount = some pins

/-- `fresh` is a child that the last visit has inserted and the next one meets. -/
def Walking (host : Host) (config : Config) (D : List Element) (s : List Element × List Element) : Prop :=
  ∃ pre post front fresh, D = pre ++ post ∧ s = (front, fresh ++ left (tags pre) post) ∧
    (∀ e ∈ fresh, e.tag ∈ helperTags) ∧ Passed host config pre (front ++ fresh) ∧
    Sound host config D pre

/-- The new `cpu` is on its way to the end. -/
def Closing (L : List Element) (s : List Element × List Element) : Prop :=
  ∃ x y, L = x ++ y ∧ "cpu" ∉ tags L ∧
    (s = (x, cpuMode :: y) ∨ (y = [] ∧ s = (x ++ [cpuMode], [])))

/-- A child that should have been rewritten is passed as it was. -/
def Unvisited (D : List Element) (l : List Element) : Prop :=
  ∃ e ∈ l, e ∈ D ∧ e.tag ∈ rewrittenTags

/-- A child that stays for good is between `vcpu` and the new `cputune`. -/
def Parted (s : List Element × List Element) : Prop :=
  ∃ v o t, v.tag = "vcpu" ∧ o.tag ∉ rewrittenTags ++ helperTags ∧ t.tag = "cputune" ∧ v ∈ s.1 ∧
    [v, o, t].Sublist ((s.1 ++ s.2).filter lasting)

inductive Stage (host : Host) (config : Config) (D : List Element) :
    List Element × List Element → Prop
  | walking {s : List Element × List Element} (hWalking : Walking host config D s) : Stage host config D s
  | closing {s : List Element × List Element} (hOrderly : Orderly config (tags D))
      (hPins : ∃ pins, vcpupins host host.vcpuCount = some pins)
      (hClosing : Closing (D.flatMap (place host config)) s) : Stage host config D s
  | missed {s : List Element × List Element} {L : List Element}
      (hCpu : ¬ CpuOrderly (behind "cpu" (tags D))) (hClosing : Closing L s)
      (hUnvisited : Unvisited D L) : Stage host config D s
  | broken {s : List Element × List Element} (hBroken : ¬ (MemoryGood config D ∧ VcpuGood D))
      (h : Unvisited D s.1 ∨ Parted s) : Stage host config D s

variable {pre post M front fresh rest main : List Element} {child : Element}

theorem Sound.append (h : Sound host config D pre) {seg : List Element}
    (hSeg : ∀ e ∈ seg, e.tag ≠ "currentMemory" ∧ e.tag ≠ "vcpu") : Sound host config D (pre ++ seg) := by
  constructor
  · intro hIn
    rw [tags_append, List.mem_append] at hIn
    refine h.memory (hIn.resolve_right fun hIn => ?_)
    obtain ⟨e, he, hTag⟩ := mem_tags.mp hIn
    exact (hSeg e he).1 hTag
  · intro hIn
    rw [tags_append, List.mem_append] at hIn
    refine h.vcpu (hIn.resolve_right fun hIn => ?_)
    obtain ⟨e, he, hTag⟩ := mem_tags.mp hIn
    exact (hSeg e he).2 hTag

theorem Sound.append_plain (h : Sound host config D pre) {seg : List Element}
    (hSeg : ∀ e ∈ seg, e.tag ∉ rewrittenTags) : Sound host config D (pre ++ seg) := by
  apply h.append
  intro e he
  constructor
  · exact fun heq => hSeg e he (heq ▸ by decide)
  · exact fun heq => hSeg e he (heq ▸ by decide)

theorem tags_left (passed : List String) (l : List Element) :
    tags (left passed l) = (tags l).filter (kept passed) := by
  rw [tags, tags, left, List.filter_map]
  rfl

/-- Elements that no visit is for, seen or not, lead from one walk to another. -/
theorem walking_of_passed (hD : D = pre ++ post) (hPassed : Passed host config pre M)
    (hSound : Sound host config D pre) {k : Nat}
    (hSkip : ∀ e ∈ (left (tags pre) post).take k, e.tag ∉ rewrittenTags)
    (hFresh : ∀ e ∈ fresh, e.tag ∈ helperTags)
    (hPlaced : ((front ++ fresh).filter fun e => settled (tags pre) e.tag) =
      (M ++ (left (tags pre) post).take k).filter fun e => settled (tags pre) e.tag)
    (hPerm : (front ++ fresh).Perm (M ++ (left (tags pre) post).take k)) :
    Walking host config D (front, fresh ++ (left (tags pre) post).drop k) := by
  obtain ⟨seg, post', rfl, hSeg, hPost⟩ :=
    List.filter_eq_append_iff.mp (List.take_append_drop k (left (tags pre) post)).symm
  have hPlain : ∀ e ∈ seg, e.tag ∉ rewrittenTags := by
    intro e he hTag
    refine hSkip e ?_ hTag
    rw [← hSeg]
    exact List.mem_filter.mpr
      ⟨he, kept_of_not_mem_helperTags (not_mem_helperTags_of_mem hTag)⟩
  have hTags : ∀ t ∈ tags seg, t ∉ rewrittenTags := List.forall_mem_map.mpr hPlain
  have hLeft : left (tags (pre ++ seg)) post' = (left (tags pre) (seg ++ post')).drop k := by
    rw [tags_append, left, kept_append hTags]
    exact hPost
  have hNext := passed_skip hPassed hPlain
  have hSeen : left (tags pre) seg = (left (tags pre) (seg ++ post')).take k := hSeg
  rw [hSeen] at hNext
  refine ⟨pre ++ seg, post', front, fresh, by rw [hD, List.append_assoc], by rw [hLeft], hFresh, ?_,
    hSound.append_plain hPlain⟩
  refine ⟨?_, fun tag hTag hKept => ?_, hNext.cpu, fun hIn => hNext.mode ?_⟩
  · rw [← hNext.placed, tags_append, settled_append hTags]
    exact hPlaced
  · rw [← hNext.waiting tag hTag hKept]
    exact (hPerm.map Element.tag).count_eq tag
  · exact (hPerm.map Element.tag).subset hIn

theorem kept_written (h : child.tag = "memory" ∨ child.tag = "os") (passed : List String) :
    kept (passed ++ [child.tag]) = kept passed := by
  funext tag
  rcases h with h | h <;> simp [kept, h]

theorem left_written (h : child.tag = "memory" ∨ child.tag = "os") :
    left (tags (pre ++ [child])) post = left (tags pre) post := by
  rw [tags_append, tags_cons, tags_nil, left, kept_written h]
  rfl

theorem left_currentMemory (h : child.tag = "currentMemory") :
    left (tags (pre ++ [child])) post = removeTag (left (tags pre) post) "memoryBacking" := by
  rw [tags_append, tags_cons, tags_nil, h, left, left, removeTag, List.filter_filter]
  refine List.filter_congr fun e _ => ?_
  rw [kept_currentMemory, Bool.and_comm]

theorem left_vcpu (h : child.tag = "vcpu") :
    left (tags (pre ++ [child])) post =
      removeTag (removeTag (left (tags pre) post) "cputune") "numatune" := by
  rw [tags_append, tags_cons, tags_nil, h, left, left, removeTag, removeTag, List.filter_filter,
    List.filter_filter]
  refine List.filter_congr fun e _ => ?_
  rw [kept_vcpu, Bool.and_assoc]

theorem tags_cons_append (hD : D = pre ++ child :: post) : tags D = tags pre ++ child.tag :: tags post := by
  rw [hD, tags_append, tags_cons]

theorem Single.not_mem (hSingle : Single D) (hD : D = pre ++ child :: post)
    (hTag : child.tag ∈ rewrittenTags) : child.tag ∉ tags pre ∧ child.tag ∉ tags post := by
  have hOne := hSingle child.tag hTag
  rw [tags_cons_append hD, List.count_append, List.count_cons_self] at hOne
  exact ⟨List.count_eq_zero.mp (by omega), List.count_eq_zero.mp (by omega)⟩

theorem before_eq (hSingle : Single D) (hD : D = pre ++ child :: post)
    (hTag : child.tag ∈ rewrittenTags) :
    before child.tag (tags D) = tags pre ∧ behind child.tag (tags D) = tags post := by
  have hNew := (hSingle.not_mem hD hTag).1
  rw [tags_cons_append hD]
  exact ⟨before_append hNew, behind_append hNew⟩

/-- The visit of a child that stays where it is. -/
theorem stage_plain (hD : D = pre ++ child :: post) (hPassed : Passed host config pre front)
    (hSound : Sound host config D pre) (hKept : kept (tags pre) child.tag = true)
    (hTag : child.tag ∉ ["vcpu", "currentMemory", "cpu"]) :
    Walking host config D (front ++ [written host config child], left (tags pre) post) := by
  by_cases hWritten : child.tag = "memory" ∨ child.tag = "os"
  · have hNext := passed_written hPassed hWritten
    have hSound' : Sound host config D (pre ++ [child]) := by
      refine hSound.append fun e he => ?_
      obtain rfl := List.mem_singleton.mp he
      rcases hWritten with h | h <;> rw [h] <;> decide
    rw [← left_written hWritten]
    exact ⟨pre ++ [child], post, _, [], by rw [hD, List.append_assoc, List.singleton_append], rfl, nofun,
      by rwa [List.append_nil], hSound'⟩
  · have hPlain : child.tag ∉ rewrittenTags := by
      simp only [rewrittenTags, List.mem_cons, List.not_mem_nil, or_false, not_or] at hTag hWritten ⊢
      tauto
    have hSame : written host config child = child := by
      simp only [rewrittenTags, List.mem_cons, List.not_mem_nil, or_false, not_or] at hPlain
      simp [written, hPlain]
    have hLeft : left (tags pre) (child :: post) = child :: left (tags pre) post :=
      List.filter_cons_of_pos hKept
    have hNext := @walking_of_passed host config D pre (child :: post) front (front ++ [child]) [] hD
      hPassed hSound 1
    rw [hLeft, List.take_succ_cons, List.take_zero, List.drop_succ_cons, List.drop_zero,
      List.append_nil, List.nil_append] at hNext
    rw [hSame]
    exact hNext (fun e he => List.mem_singleton.mp he ▸ hPlain) nofun rfl (List.Perm.refl _)

theorem tags_removeTag (l : List Element) (tag : String) :
    tags (removeTag l tag) = (tags l).filter fun t => t ≠ tag := by
  rw [tags, tags, removeTag, List.filter_map]
  rfl

theorem forall_tags (p : String → Prop) {l : List Element} :
    (∀ t ∈ tags l, p t) ↔ ∀ e ∈ l, p e.tag :=
  List.forall_mem_map

theorem tags_take (k : Nat) (l : List Element) : tags (l.take k) = (tags l).take k :=
  List.map_take

theorem mem_of_mem_left {passed : List String} {l : List Element} {e : Element}
    (h : e ∈ left passed l) : e ∈ l :=
  List.mem_of_mem_filter h

theorem memoryGood_iff (hSingle : Single D) (hD : D = pre ++ child :: post)
    (hTag : child.tag = "currentMemory") : MemoryGood config D ↔
      ∀ e ∈ (left (tags (pre ++ [child])) post).take
          ((tags pre).count "memoryBacking" - (backing config).length),
        e.tag ∉ rewrittenTags := by
  obtain ⟨hBefore, hBehind⟩ := before_eq hSingle hD (hTag ▸ by decide)
  rw [MemoryGood, ← hTag, hBefore, hBehind, MemoryOrderly, ← forall_tags (fun t => t ∉ rewrittenTags),
    tags_take, tags_left, tags_append, tags_cons, tags_nil, hTag]

/-- The visit of `currentMemory`. -/
theorem stage_currentMemory (hSingle : Single D) (hD : D = pre ++ child :: post)
    (hPassed : Passed host config pre front) (hSound : Sound host config D pre)
    (hTag : child.tag = "currentMemory")
    (hMain : main = removeTag front "memoryBacking" ++ written host config child ::
      (backing config ++ removeTag (left (tags pre) post) "memoryBacking")) :
    Stage host config D (main.take (front.length + 1), main.drop (front.length + 1)) := by
  have hNew : "currentMemory" ∉ tags pre := hTag ▸ (hSingle.not_mem hD (hTag ▸ by decide)).1
  have hNext := passed_currentMemory hPassed hTag hNew
  have hGood := @memoryGood_iff config D pre post child hSingle hD hTag
  rw [← left_currentMemory hTag] at hMain
  -- as many children are passed unseen as the removal before `currentMemory` has moved forward
  have hCount : (tags front).count "memoryBacking" = (tags pre).count "memoryBacking" :=
    hPassed.waiting _ (by decide) (by simp [kept, hNew])
  obtain ⟨b, hb⟩ : ∃ b, b = (tags pre).count "memoryBacking" := ⟨_, rfl⟩
  obtain ⟨X, hX⟩ : ∃ X, X = left (tags (pre ++ [child])) post := ⟨_, rfl⟩
  have hState : (main.take (front.length + 1), main.drop (front.length + 1)) =
      (removeTag front "memoryBacking" ++ written host config child :: ((backing config).take b ++
        X.take (b - (backing config).length)),
        (backing config).drop b ++ X.drop (b - (backing config).length)) := by
    rw [hMain, ← length_removeTag "memoryBacking" front, hCount, ← hb, ← hX, take_behind, drop_behind,
      List.take_append, List.drop_append]
  rw [hState]
  rw [← hb, ← hX] at hGood
  by_cases hMemory : MemoryGood config D
  · have hEq : removeTag front "memoryBacking" ++ written host config child :: ((backing config).take b ++
        X.take (b - (backing config).length)) ++ (backing config).drop b =
          removeTag front "memoryBacking" ++ written host config child :: backing config ++
            X.take (b - (backing config).length) := by
      rw [List.append_assoc, List.cons_append, take_take_drop, List.append_assoc, List.cons_append]
    have hSound' : Sound host config D (pre ++ [child]) := by
      refine ⟨fun _ => hMemory, fun hIn => hSound.vcpu ?_⟩
      rw [tags_append, List.mem_append, tags_cons, hTag] at hIn
      exact hIn.resolve_right (by decide)
    rw [hX] at hGood hEq ⊢
    apply Stage.walking
    exact walking_of_passed (by rw [hD, List.append_assoc, List.singleton_append]) hNext hSound'
      (hGood.mp hMemory) (fun e he => tag_of_mem_backing (List.mem_of_mem_drop he) ▸ by decide)
      (by rw [hEq]) (List.Perm.of_eq hEq)
  · apply Stage.broken fun h => hMemory h.1
    rw [hGood] at hMemory
    push Not at hMemory
    obtain ⟨e, he, hRew⟩ := hMemory
    refine .inl ⟨e, ?_, ?_, hRew⟩
    · exact List.mem_append_right _ (List.mem_cons_of_mem _ (List.mem_append_right _ he))
    · rw [hX] at he
      rw [hD]
      exact List.mem_append_right _
        (List.mem_cons_of_mem _ (mem_of_mem_left (List.mem_of_mem_take he)))

theorem vcpuGood_iff (hSingle : Single D) (hD : D = pre ++ child :: post) (hTag : child.tag = "vcpu") :
    VcpuGood D ↔
      (∀ e ∈ (removeTag (left (tags pre) post) "cputune").take ((tags pre).count "cputune"),
        e.tag = "numatune" ∨ e.tag = "memoryBacking") ∧
      ∀ e ∈ (left (tags (pre ++ [child])) post).take
          ((tags pre).count "cputune" + (tags pre).count "numatune" - 1),
        e.tag ∉ rewrittenTags := by
  obtain ⟨hBefore, hBehind⟩ := before_eq hSingle hD (hTag ▸ by decide)
  rw [VcpuGood, ← hTag, hBefore, hBehind,
    ← forall_tags (fun t => t = "numatune" ∨ t = "memoryBacking"),
    ← forall_tags (fun t => t ∉ rewrittenTags), tags_take, tags_take, tags_removeTag, tags_left, tags_left,
    List.filter_filter, tags_append, tags_cons, tags_nil, hTag]
  exact ⟨fun h => ⟨h.tuned, h.passed⟩, fun h => ⟨h.1, h.2⟩⟩

theorem parted_of_mem {A F Y : List Element} {v o t : Element} {s : List Element × List Element}
    (ho : o ∈ F) (hv : v.tag = "vcpu") (hOther : o.tag ∉ rewrittenTags ++ helperTags)
    (ht : t.tag = "cputune") (hFront : v ∈ s.1) (hMain : s.1 ++ s.2 = A ++ v :: (F ++ t :: Y)) :
    Parted s := by
  refine ⟨v, o, t, hv, hOther, ht, hFront, ?_⟩
  have hSub : [v, o, t].Sublist (A ++ v :: (F ++ t :: Y)) := by
    refine List.sublist_append_of_sublist_right (List.Sublist.cons_cons v ?_)
    exact (List.singleton_sublist.mpr ho).append (List.singleton_sublist.mpr List.mem_cons_self)
  have hLasting : [v, o, t].filter lasting = [v, o, t] := by
    simp only [rewrittenTags, helperTags, List.cons_append, List.nil_append, List.mem_cons,
      List.not_mem_nil, or_false, not_or] at hOther
    simp [lasting, hv, ht, hOther]
  rw [hMain, ← hLasting]
  exact hSub.filter lasting

/-- The new `cputune` may be behind children `F` that the visit of `currentMemory`
is still to remove. -/
theorem walking_vcpu {A F Y : List Element} {v t : Element} {k : Nat} (hD : D = pre ++ post)
    (hPassed : Passed host config pre (A ++ [v, t])) (hSound : Sound host config D pre)
    (hLeft : left (tags pre) post = F ++ Y) (hTune : t.tag ∈ helperTags)
    (hF : ∀ e ∈ F, settled (tags pre) e.tag = false ∧ e.tag ∉ rewrittenTags)
    (hSkip : ∀ e ∈ (F ++ Y).take (k - 1), e.tag ∉ rewrittenTags) (hLength : F.length ≤ k) :
    Walking host config D (A ++ v :: (F ++ t :: Y).take k, (F ++ t :: Y).drop k) := by
  have hNone : F.filter (fun e => settled (tags pre) e.tag) = [] :=
    List.filter_eq_nil_iff.mpr fun e he => by rw [(hF e he).1]; decide
  have hPlaced : ∀ Z, ((A ++ v :: (F ++ t :: Z)).filter fun e => settled (tags pre) e.tag) =
      (A ++ [v, t] ++ (F ++ Z)).filter fun e => settled (tags pre) e.tag := by
    intro Z
    simp only [List.filter_append, List.filter_cons, hNone, List.nil_append, List.append_assoc]
    split_ifs <;> simp
  have hPerm : ∀ Z, (A ++ v :: (F ++ t :: Z)).Perm (A ++ [v, t] ++ (F ++ Z)) := by
    intro Z
    rw [List.append_assoc]
    exact (List.perm_middle.cons v).append_left A
  rcases hLength.eq_or_lt with hEq | hLess
  · have hTake : (left (tags pre) post).take F.length = F := by rw [hLeft, List.take_left]
    have hDrop : (left (tags pre) post).drop F.length = Y := by rw [hLeft, List.drop_left]
    have hEqual : A ++ v :: F ++ [t] = A ++ v :: (F ++ [t]) := by
      rw [List.append_assoc, List.cons_append]
    have hNext := @walking_of_passed host config D pre post _ (A ++ v :: F) [t] hD hPassed hSound F.length
    rw [hTake, hDrop, hEqual] at hNext
    rw [← hEq, List.take_left, List.drop_left]
    refine hNext (fun e he => (hF e he).2) (fun e he => List.mem_singleton.mp he ▸ hTune) ?_ ?_
    · simpa using hPlaced []
    · simpa using hPerm []
  · obtain ⟨j, rfl⟩ := Nat.exists_eq_add_of_lt hLess
    have hTake : (left (tags pre) post).take (F.length + j) = F ++ Y.take j := by
      rw [hLeft, List.take_length_add_append]
    have hDrop : (left (tags pre) post).drop (F.length + j) = Y.drop j := by
      rw [hLeft, List.drop_length_add_append]
    have hNext := @walking_of_passed host config D pre post _ (A ++ v :: (F ++ t :: Y.take j)) [] hD
      hPassed hSound (F.length + j)
    rw [hTake, hDrop, List.append_nil, List.nil_append] at hNext
    rw [Nat.add_assoc, List.take_length_add_append, List.drop_length_add_append, List.take_succ_cons,
      List.drop_succ_cons]
    refine hNext ?_ nofun (hPlaced _) (hPerm _)
    rwa [Nat.add_sub_cancel, List.take_length_add_append] at hSkip

/-- What the visit of `vcpu` passes over where it should not. -/
theorem broken_vcpu {A R F Y : List Element} {c n : Nat} {s : List Element × List Element}
    {v t : Element} (hv : v.tag = "vcpu") (ht : t.tag = "cputune") (hIn : ∀ e ∈ F ++ Y, e ∈ D)
    (hR : ∀ e ∈ R, e.tag ≠ "cputune") (hF : F = removeTag (R.take c) "numatune")
    (hState : s = (A ++ v :: (F ++ t :: Y).take (c + n), (F ++ t :: Y).drop (c + n)))
    (hBad : ¬ ((∀ e ∈ R.take c, e.tag = "numatune" ∨ e.tag = "memoryBacking") ∧
      ∀ e ∈ (F ++ Y).take (c + n - 1), e.tag ∉ rewrittenTags)) :
    Unvisited D s.1 ∨ Parted s := by
  have hLength : F.length ≤ c + n :=
    hF ▸ ((removeTag_sublist _ _).length_le.trans (List.length_take_le c R)).trans (Nat.le_add_right c n)
  by_cases hOnly : ∀ e ∈ R.take c, e.tag = "numatune" ∨ e.tag = "memoryBacking"
  · have hSome : ¬ ∀ e ∈ (F ++ Y).take (c + n - 1), e.tag ∉ rewrittenTags := fun h => hBad ⟨hOnly, h⟩
    push Not at hSome
    obtain ⟨e, he, hRew⟩ := hSome
    have hPos : c + n - 1 + 1 = c + n := by
      apply Nat.sub_add_cancel (Nat.one_le_iff_ne_zero.mpr _)
      intro hZero
      rw [hZero] at he
      cases he
    refine .inl ⟨e, ?_, hIn e (List.mem_of_mem_take he), hRew⟩
    rw [hState, ← hPos]
    exact List.mem_append_right _ (List.mem_cons_of_mem _ (mem_take_insert he))
  · push Not at hOnly
    obtain ⟨e, he, hNuma, hBacking⟩ := hOnly
    have heF : e ∈ F := hF ▸ mem_removeTag.mpr ⟨he, hNuma⟩
    by_cases hRew : e.tag ∈ rewrittenTags
    · refine .inl ⟨e, ?_, hIn e (List.mem_append_left _ heF), hRew⟩
      rw [hState]
      exact List.mem_append_right _ (List.mem_cons_of_mem _ (mem_take_append hLength heF))
    · have hTune : e.tag ≠ "cputune" := hR e (List.mem_of_mem_take he)
      have hMain : s.1 ++ s.2 = A ++ v :: (F ++ t :: Y) := by
        rw [hState, List.append_assoc, List.cons_append, List.take_append_drop]
      refine .inr (parted_of_mem heF hv ?_ ht ?_ hMain)
      · simp [hRew, helperTags, hTune, hNuma, hBacking]
      · rw [hState]
        exact List.mem_append_right _ List.mem_cons_self

/-- The visit of `vcpu`. -/
theorem stage_vcpu (hSingle : Single D) (hD : D = pre ++ child :: post)
    (hPassed : Passed host config pre front) (hSound : Sound host config D pre)
    (hTag : child.tag = "vcpu") (hPins : ∃ pins, vcpupins host host.vcpuCount = some pins)
    (hMain : main = removeTag (removeTag front "cputune") "numatune" ++ written host config child ::
      (removeTag ((removeTag (left (tags pre) post) "cputune").take ((tags front).count "cputune"))
          "numatune" ++ tune host ::
        removeTag ((removeTag (left (tags pre) post) "cputune").drop ((tags front).count "cputune"))
          "numatune")) :
    Stage host config D (main.take (front.length + 1), main.drop (front.length + 1)) := by
  have hNew : "vcpu" ∉ tags pre := hTag ▸ (hSingle.not_mem hD (hTag ▸ by decide)).1
  have hNext := passed_vcpu hPassed hTag hNew
  have hGood := vcpuGood_iff hSingle hD hTag
  have hCountTune : (tags front).count "cputune" = (tags pre).count "cputune" :=
    hPassed.waiting _ (by decide) (by simp [kept, hNew])
  have hCountNuma : (tags front).count "numatune" = (tags pre).count "numatune" :=
    hPassed.waiting _ (by decide) (by simp [kept, hNew])
  obtain ⟨c, hc⟩ : ∃ c, c = (tags pre).count "cputune" := ⟨_, rfl⟩
  obtain ⟨n, hn⟩ : ∃ n, n = (tags pre).count "numatune" := ⟨_, rfl⟩
  obtain ⟨R, hR⟩ : ∃ R, R = removeTag (left (tags pre) post) "cputune" := ⟨_, rfl⟩
  obtain ⟨F, hF⟩ : ∃ F, F = removeTag (R.take c) "numatune" := ⟨_, rfl⟩
  obtain ⟨Y, hY⟩ : ∃ Y, Y = removeTag (R.drop c) "numatune" := ⟨_, rfl⟩
  have hX : left (tags (pre ++ [child])) post = F ++ Y := by
    rw [left_vcpu hTag, ← hR, hF, hY, ← removeTag_append, List.take_append_drop]
  have hLength : F.length ≤ c := hF ▸ (removeTag_sublist _ _).length_le.trans (List.length_take_le c R)
  rw [hCountTune, ← hc, ← hR, ← hF, ← hY] at hMain
  rw [← hc, ← hn, ← hR, hX] at hGood
  have hState : (main.take (front.length + 1), main.drop (front.length + 1)) =
      (removeTag (removeTag front "cputune") "numatune" ++ written host config child ::
        (F ++ tune host :: Y).take (c + n), (F ++ tune host :: Y).drop (c + n)) := by
    rw [hMain, ← length_removeTag_tune front, hCountTune, hCountNuma, ← hc, ← hn, take_behind, drop_behind]
  by_cases hVcpu : VcpuGood D
  · obtain ⟨hOnly, hSkip⟩ := hGood.mp hVcpu
    have hSound' : Sound host config D (pre ++ [child]) := by
      refine ⟨fun hIn => hSound.memory ?_, fun _ => ⟨hVcpu, hPins⟩⟩
      rw [tags_append, List.mem_append, tags_cons, hTag] at hIn
      exact hIn.resolve_right (by decide)
    -- what is left between `vcpu` and `cputune` goes with the visit of `currentMemory`
    have hBetween : ∀ e ∈ F, settled (tags (pre ++ [child])) e.tag = false ∧ e.tag ∉ rewrittenTags := by
      intro e he
      obtain ⟨he, hNuma⟩ := mem_removeTag.mp (hF ▸ he)
      have hBacking := (hOnly e he).resolve_left hNuma
      rw [hR] at he
      have hKept := (List.mem_filter.mp (mem_removeTag.mp (List.mem_of_mem_take he)).1).2
      rw [hBacking] at hKept ⊢
      simp only [kept, if_true, decide_eq_true_eq] at hKept
      exact ⟨by simp [settled, hKept, hTag], by decide⟩
    rw [hState]
    apply Stage.walking
    exact walking_vcpu (by rw [hD, List.append_assoc, List.singleton_append]) hNext hSound' hX
      (by rw [tune_tag]; decide) hBetween hSkip (hLength.trans (Nat.le_add_right c n))
  · apply Stage.broken fun h => hVcpu h.2
    rw [hGood] at hVcpu
    apply broken_vcpu ((written_tag host config child).trans hTag) (tune_tag host) _ _ hF hState hVcpu
    · intro e he
      rw [hD]
      exact List.mem_append_right _ (List.mem_cons_of_mem _ (mem_of_mem_left (hX ▸ he)))
    · intro e he
      exact (mem_removeTag.mp (hR ▸ he)).2

theorem removeTag_eq_self {tag : String} {l : List Element} (h : tag ∉ tags l) : removeTag l tag = l :=
  List.filter_eq_self.mpr fun e he => by simpa using fun heq : e.tag = tag => h (mem_tags.mpr ⟨e, he, heq⟩)

/-- Each visit of the new `cpu` moves it on by one place. -/
theorem closing_visit {x y : List Element} (hCpu : "cpu" ∉ tags (x ++ y)) :
    Closing (x ++ y)
      ((pyInsert (removeTag x "cpu" ++ removeTag y "cpu") (x.length + 1) cpuMode).take (x.length + 1),
        (pyInsert (removeTag x "cpu" ++ removeTag y "cpu") (x.length + 1) cpuMode).drop (x.length + 1)) := by
  rw [← removeTag_append, removeTag_eq_self hCpu]
  cases y with
  | nil =>
    refine ⟨x, [], rfl, hCpu, .inr ⟨rfl, ?_⟩⟩
    rw [List.append_nil, pyInsert_of_length_le (Nat.le_succ _), List.take_of_length_le (by simp),
      List.drop_eq_nil_of_le (by simp)]
  | cons b y =>
    refine ⟨x ++ [b], y, by rw [List.append_assoc, List.singleton_append], hCpu, .inl ?_⟩
    have hMain : pyInsert (x ++ b :: y) (x.length + 1) cpuMode = x ++ b :: cpuMode :: y :=
      pyInsert_behind x b y 0 cpuMode
    rw [hMain, take_next, drop_next]

theorem Single.mem_pre (hSingle : Single D) (hD : D = pre ++ child :: post)
    (hPlain : ∀ e ∈ post, e.tag ∉ rewrittenTags) {tag : String} (hTag : tag ∈ rewrittenTags)
    (hne : tag ≠ child.tag) : tag ∈ tags pre := by
  have hNone : tag ∉ tags post := by
    intro hIn
    obtain ⟨e, he, rfl⟩ := mem_tags.mp hIn
    exact hPlain e he hTag
  have hOne := hSingle tag hTag
  rw [tags_cons_append hD, List.count_append, List.count_cons_of_ne hne.symm,
    List.count_eq_zero.mpr hNone] at hOne
  exact List.count_pos_iff.mp (by omega)

/-- Once both are visited that remove children, all passed is as it stays. -/
theorem append_left_eq (hD : D = pre ++ child :: post) (hTag : child.tag = "cpu")
    (hPassed : Passed host config pre front) (hPlain : ∀ e ∈ post, e.tag ∉ rewrittenTags)
    (hMemory : "currentMemory" ∈ tags pre) (hVcpu : "vcpu" ∈ tags pre) :
    front ++ left (tags pre) post = D.flatMap (place host config) := by
  have hSettled : ∀ tag, settled (tags (pre ++ post)) tag = true := by
    intro tag
    rw [tags_append]
    simp [settled, hMemory, hVcpu]
  have hEq := (passed_skip hPassed hPlain).placed
  rw [List.filter_eq_self.mpr fun e _ => hSettled e.tag] at hEq
  have hPlace : place host config child = [] := by
    simp [place, hTag]
  rw [hEq, hD, List.flatMap_append, List.flatMap_append, List.flatMap_cons, hPlace, List.nil_append]

/-- The visit of the `cpu` of the document. -/
theorem stage_cpu (hSingle : Single D) (hD : D = pre ++ child :: post)
    (hPassed : Passed host config pre front) (hSound : Sound host config D pre)
    (hTag : child.tag = "cpu")
    (hMain : main = pyInsert (removeTag front "cpu" ++ removeTag (left (tags pre) post) "cpu")
      (front.length + 1) cpuMode) :
    Stage host config D (main.take (front.length + 1), main.drop (front.length + 1)) := by
  have hRewritten : child.tag ∈ rewrittenTags := hTag ▸ by decide
  obtain ⟨hBefore, hBehind⟩ := before_eq hSingle hD hRewritten
  rw [hTag] at hBehind
  have hCpu : "cpu" ∉ tags (front ++ left (tags pre) post) := by
    rw [tags_append, List.mem_append, not_or]
    refine ⟨hPassed.mode, fun hIn => (hTag ▸ (hSingle.not_mem hD hRewritten).2 : "cpu" ∉ tags post) ?_⟩
    rw [tags_left] at hIn
    exact List.mem_of_mem_filter hIn
  have hClosing := closing_visit hCpu
  rw [← hMain] at hClosing
  by_cases hPost : CpuOrderly (behind "cpu" (tags D))
  · -- all that is rewritten stands before `cpu`
    have hPlain : ∀ e ∈ post, e.tag ∉ rewrittenTags := by
      rwa [hBehind, CpuOrderly, forall_tags (fun t => t ∉ rewrittenTags)] at hPost
    have hMemory := hSingle.mem_pre hD hPlain (by decide) (hTag ▸ by decide : "currentMemory" ≠ child.tag)
    have hVcpu := hSingle.mem_pre hD hPlain (by decide) (hTag ▸ by decide : "vcpu" ≠ child.tag)
    rw [append_left_eq hD hTag hPassed hPlain hMemory hVcpu] at hClosing
    obtain ⟨hVcpuGood, hPins⟩ := hSound.vcpu hVcpu
    exact .closing ⟨hSound.memory hMemory, hVcpuGood, hPost⟩ hPins hClosing
  · have hMissed := hPost
    rw [hBehind, CpuOrderly, forall_tags (fun t => t ∉ rewrittenTags)] at hMissed
    push Not at hMissed
    obtain ⟨e, he, hRew⟩ := hMissed
    refine .missed hPost hClosing ⟨e, List.mem_append_right _ ?_, ?_, hRew⟩
    · exact List.mem_filter.mpr ⟨he, kept_of_not_mem_helperTags (not_mem_helperTags_of_mem hRew)⟩
    · rw [hD]
      exact List.mem_append_right _ (List.mem_cons_of_mem _ he)

/-- The next child that still stands, behind those removed since. -/
theorem exists_next (hD : D = pre ++ post) (hPassed : Passed host config pre front)
    (hSound : Sound host config D pre) (hLeft : left (tags pre) post = child :: rest) :
    ∃ pre' post', D = pre' ++ child :: post' ∧ rest = left (tags pre') post' ∧
      kept (tags pre') child.tag = true ∧ Passed host config pre' front ∧ Sound host config D pre' := by
  obtain ⟨gone, post, rfl, hGone, hKept, rfl⟩ := List.filter_eq_cons_iff.mp hLeft
  have hPlain : ∀ e ∈ gone, e.tag ∉ rewrittenTags := fun e he hTag =>
    hGone e he (kept_of_not_mem_helperTags (not_mem_helperTags_of_mem hTag))
  have hNone : left (tags pre) gone = [] := List.filter_eq_nil_iff.mpr hGone
  have hTags : ∀ t ∈ tags gone, t ∉ rewrittenTags := List.forall_mem_map.mpr hPlain
  have hSame : kept (tags (pre ++ gone)) = kept (tags pre) := by
    rw [tags_append, kept_append hTags]
  have hSkip := passed_skip hPassed hPlain
  rw [hNone, List.append_nil] at hSkip
  refine ⟨pre ++ gone, post, by rw [hD, List.append_assoc], ?_, ?_, hSkip, hSound.append_plain hPlain⟩
  · rw [left, hSame]
  · rwa [hSame]

theorem walking_fresh {x : Element} {fresh : List Element} (hD : D = pre ++ post)
    (hFresh : ∀ e ∈ x :: fresh, e.tag ∈ helperTags)
    (hPassed : Passed host config pre (front ++ x :: fresh)) (hSound : Sound host config D pre)
    (hMain : visit host config front x (fresh ++ left (tags pre) post) = some main) :
    Walking host config D (main.take (front.length + 1), main.drop (front.length + 1)) := by
  have hHelper := hFresh x List.mem_cons_self
  have hSame : written host config x = x ∧ x.tag ∉ ["vcpu", "currentMemory", "cpu"] := by
    simp only [helperTags, List.mem_cons, List.not_mem_nil, or_false] at hHelper
    rcases hHelper with h | h | h <;> simp [written, h]
  rw [visit_plain hSame.2, hSame.1] at hMain
  obtain rfl := Option.some.inj hMain
  rw [take_next, drop_next]
  refine ⟨pre, post, front ++ [x], fresh, hD, rfl, fun e he => hFresh e (List.mem_cons_of_mem x he), ?_,
    hSound⟩
  rwa [List.append_assoc, List.singleton_append]

theorem stage_of_walking {s t : List Element × List Element} (hSingle : Single D)
    (hWalking : Walking host config D s) (hTurn : Turn (visit host config) s t) :
    Stage host config D t := by
  obtain ⟨pre, post, front, fresh, hD, rfl, hFresh, hPassed, hSound⟩ := hWalking
  cases fresh with
  | cons x fresh =>
    rw [List.cons_append] at hTurn
    obtain ⟨hMain⟩ := hTurn
    exact .walking (walking_fresh hD hFresh hPassed hSound hMain)
  | nil =>
    rw [List.append_nil] at hPassed
    rw [List.nil_append] at hTurn
    cases hLeft : left (tags pre) post with
    | nil =>
      rw [hLeft] at hTurn
      cases hTurn
    | cons child rest =>
      rw [hLeft] at hTurn
      obtain ⟨hMain⟩ := hTurn
      obtain ⟨pre, post, hD, rfl, hKept, hPassed, hSound⟩ := exists_next hD hPassed hSound hLeft
      rcases visit_cases hMain with ⟨hTag, rfl⟩ | ⟨hTag, hMain⟩ | ⟨hTag, hPins, hMain⟩ | ⟨hTag, hMain⟩
      · rw [take_next, drop_next]
        exact .walking (stage_plain hD hPassed hSound hKept hTag)
      · exact stage_currentMemory hSingle hD hPassed hSound hTag hMain
      · exact stage_vcpu hSingle hD hPassed hSound hTag hPins hMain
      · exact stage_cpu hSingle hD hPassed hSound hTag hMain

/-! ### After a child is passed over -/

section Broken

variable {s t : List Element × List Element}

theorem count_turn (hTurn : Turn (visit host config) s t) {tag : String} (hTag : tag ∈ rewrittenTags) :
    (tags (t.1 ++ t.2)).count tag ≤ (tags (s.1 ++ s.2)).count tag := by
  obtain ⟨hMain⟩ := hTurn
  dsimp only
  rw [List.take_append_drop]
  exact visit_count hMain hTag

theorem tag_ne_of_count {e : Element} (hCount : ∀ tag ∈ rewrittenTags,
    (tags (front ++ child :: rest)).count tag ≤ 1) (he : e ∈ front) (hTag : e.tag ∈ rewrittenTags) :
    e.tag ≠ child.tag := by
  intro heq
  have hOne := hCount e.tag hTag
  have hPos := List.count_pos_iff.mpr (mem_tags.mpr ⟨e, he, rfl⟩)
  rw [tags_append, List.count_append, tags_cons, ← heq, List.count_cons_self] at hOne
  omega

theorem unvisited_turn (hTurn : Turn (visit host config) s t)
    (hCount : ∀ tag ∈ rewrittenTags, (tags (s.1 ++ s.2)).count tag ≤ 1) (h : Unvisited D s.1) :
    Unvisited D t.1 := by
  obtain ⟨hMain⟩ := hTurn
  obtain ⟨e, he, hD, hTag⟩ := h
  exact ⟨e, visit_front hMain he hTag (tag_ne_of_count hCount he hTag), hD, hTag⟩

theorem parted_turn (hTurn : Turn (visit host config) s t)
    (hCount : ∀ tag ∈ rewrittenTags, (tags (s.1 ++ s.2)).count tag ≤ 1) (h : Parted s) : Parted t := by
  obtain ⟨hMain⟩ := hTurn
  obtain ⟨v, o, t, hv, ho, ht, hFront, hSub⟩ := h
  have hRew : v.tag ∈ rewrittenTags := hv ▸ by decide
  have hne := tag_ne_of_count hCount hFront hRew
  refine ⟨v, o, t, hv, ho, ht, visit_front hMain hFront hRew hne, ?_⟩
  dsimp only at hSub ⊢
  rwa [List.take_append_drop, visit_lasting hMain (hv ▸ hne.symm)]

theorem closing_turn {L : List Element} (hTurn : Turn (visit host config) s t) (h : Closing L s) :
    Closing L t := by
  obtain ⟨x, y, rfl, hCpu, rfl | ⟨rfl, rfl⟩⟩ := h
  · obtain ⟨hMain⟩ := hTurn
    rw [visit_cpu rfl] at hMain
    obtain rfl := Option.some.inj hMain
    exact closing_visit hCpu
  · cases hTurn

theorem stage_turn (hSingle : Single D) (h : Stage host config D s) (hTurn : Turn (visit host config) s t)
    (hCount : ∀ tag ∈ rewrittenTags, (tags (s.1 ++ s.2)).count tag ≤ 1) : Stage host config D t := by
  cases h with
  | walking hWalking => exact stage_of_walking hSingle hWalking hTurn
  | closing hOrderly hPins hClosing => exact .closing hOrderly hPins (closing_turn hTurn hClosing)
  | missed hCpu hClosing hUnvisited => exact .missed hCpu (closing_turn hTurn hClosing) hUnvisited
  | broken hBroken h =>
    exact .broken hBroken (h.imp (unvisited_turn hTurn hCount) (parted_turn hTurn hCount))

end Broken

theorem left_nil (l : List Element) : left [] l = l :=
  List.filter_eq_self.mpr fun e _ => by simp [kept]

theorem stage_of_reaches {s : List Element × List Element} (hSingle : Single D)
    (hRun : ReflTransGen (Turn (visit host config)) ([], D) s) : Stage host config D s := by
  have hStart : Stage host config D ([], D) ∧
      ∀ tag ∈ rewrittenTags, (tags ([] ++ D)).count tag ≤ 1 := by
    refine ⟨.walking ⟨[], D, [], [], rfl, ?_, nofun, passed_nil, nofun, nofun⟩, fun tag hTag =>
      (hSingle tag hTag).le⟩
    rw [tags_nil, left_nil, List.nil_append]
  exact (invariant_of_reaches (I := fun s => Stage host config D s ∧
    ∀ tag ∈ rewrittenTags, (tags (s.1 ++ s.2)).count tag ≤ 1) (fun s t h hTurn =>
      ⟨stage_turn hSingle h.1 hTurn h.2, fun tag hTag => (count_turn hTurn hTag).trans (h.2 tag hTag)⟩)
    hStart hRun).1

/-- How a run ends. -/
theorem rewriteConfig_cases {result : List Element} (hSingle : Single D)
    (hResult : rewriteConfig host config D = some result) :
    (Orderly config (tags D) ∧ (∃ pins, vcpupins host host.vcpuCount = some pins) ∧
      result = D.flatMap (place host config) ++ [cpuMode]) ∨
    (¬ CpuOrderly (behind "cpu" (tags D)) ∧ ∃ L, result = L ++ [cpuMode] ∧ Unvisited D L) ∨
    (¬ (MemoryGood config D ∧ VcpuGood D) ∧ (Unvisited D result ∨ Parted (result, []))) := by
  have hEnd : ∀ L, Closing L (result, []) → result = L ++ [cpuMode] := by
    rintro L ⟨x, y, rfl, -, hState | ⟨rfl, hState⟩⟩
    · cases hState
    · rw [List.append_nil]
      exact (Prod.mk.inj hState).1
  cases stage_of_reaches hSingle (reaches_of_loop hResult) with
  | walking hWalking =>
    -- the `cpu` is still to come
    obtain ⟨pre, post, front, fresh, hD, hState, -, hPassed, -⟩ := hWalking
    have hOne := hSingle "cpu" (by decide)
    have hNone : left (tags pre) post = [] := (List.append_eq_nil_iff.mp (Prod.mk.inj hState).2.symm).2
    have hKept : (tags (left (tags pre) post)).count "cpu" = (tags post).count "cpu" :=
      count_left (kept_of_not_mem_helperTags (by decide))
    rw [hD, tags_append, List.count_append, List.count_eq_zero.mpr hPassed.cpu, ← hKept, hNone] at hOne
    exact absurd hOne (by decide)
  | closing hOrderly hPins hClosing => exact .inl ⟨hOrderly, hPins, hEnd _ hClosing⟩
  | missed hCpu hClosing hUnvisited => exact .inr (.inl ⟨hCpu, _, hEnd _ hClosing, hUnvisited⟩)
  | broken hBroken h => exact .inr (.inr ⟨hBroken, h⟩)

end Run

end Trident.Scripts.VmConfigs
