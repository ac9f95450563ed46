import Trident.Scripts.VmConfigs

/-! # The order of the children of a domain

The loop of `rewrite_config` passes over children whose place its helpers change.
Here stand the orders in which it misses none of them, and what a visit does to
the children passed before it.
-/

namespace Trident.Scripts.VmConfigs

open Cursor

/-! ## Which children a visit removes -/

def rewrittenTags : List String := ["memory", "currentMemory", "vcpu", "os", "cpu"]

/-- The children that the visits of `vcpu` and of `currentMemory` replace. -/
def helperTags : List String := ["cputune", "numatune", "memoryBacking"]

/-- Whether a child of this tag still stands after visits of the tags passed. -/
def kept (passed : List String) (tag : String) : Bool :=
  if tag = "memoryBacking" then "currentMemory" ∉ passed
  else if tag = "cputune" ∨ tag = "numatune" then "vcpu" ∉ passed
  else true

/-- Whether no visit after those of the tags passed removes a child of this tag. -/
def settled (passed : List String) (tag : String) : Bool :=
  if tag = "memoryBacking" then "currentMemory" ∈ passed
  else if tag = "cputune" ∨ tag = "numatune" then "vcpu" ∈ passed
  else true

section Tags

variable {passed seg : List String} {tag : String}

theorem kept_and_settled (passed : List String) (tag : String) :
    (kept passed tag && settled passed tag) = decide (tag ∉ helperTags) := by
  unfold kept settled
  split_ifs with hBacking hTune
  · simp [helperTags, hBacking]
  · rcases hTune with rfl | rfl <;> simp [helperTags]
  · rw [not_or] at hTune
    simp [helperTags, hBacking, hTune]

theorem kept_of_not_mem_helperTags (h : tag ∉ helperTags) : kept passed tag = true := by
  simp only [helperTags, List.mem_cons, List.not_mem_nil, or_false, not_or] at h
  rw [kept, if_neg h.2.2, if_neg (not_or.mpr ⟨h.1, h.2.1⟩)]

theorem not_mem_helperTags_of_mem (h : tag ∈ rewrittenTags) : tag ∉ helperTags := by
  simp only [rewrittenTags, List.mem_cons, List.not_mem_nil, or_false] at h
  rcases h with rfl | rfl | rfl | rfl | rfl <;> decide

theorem kept_append (hSeg : ∀ t ∈ seg, t ∉ rewrittenTags) : kept (passed ++ seg) = kept passed := by
  have hMemory : "currentMemory" ∉ seg := fun h => hSeg _ h (by decide)
  have hVcpu : "vcpu" ∉ seg := fun h => hSeg _ h (by decide)
  funext tag
  simp [kept, hMemory, hVcpu]

theorem settled_append (hSeg : ∀ t ∈ seg, t ∉ rewrittenTags) :
    settled (passed ++ seg) = settled passed := by
  have hMemory : "currentMemory" ∉ seg := fun h => hSeg _ h (by decide)
  have hVcpu : "vcpu" ∉ seg := fun h => hSeg _ h (by decide)
  funext tag
  simp [settled, hMemory, hVcpu]

theorem kept_currentMemory :
    kept (passed ++ ["currentMemory"]) tag = (kept passed tag && decide (tag ≠ "memoryBacking")) := by
  unfold kept
  split_ifs with hBacking hTune <;> simp [hBacking]

theorem kept_vcpu : kept (passed ++ ["vcpu"]) tag =
    (decide (tag ≠ "numatune") && (decide (tag ≠ "cputune") && kept passed tag)) := by
  unfold kept
  split_ifs with hBacking hTune
  · simp [hBacking]
  · rcases hTune with rfl | rfl <;> simp
  · rw [not_or] at hTune
    simp [hTune]

theorem settled_currentMemory (h : "currentMemory" ∉ passed) :
    (settled (passed ++ ["currentMemory"]) tag && decide (tag ≠ "memoryBacking")) =
      settled passed tag := by
  unfold settled
  split_ifs with hBacking hTune <;> simp [hBacking, h]

theorem settled_vcpu (h : "vcpu" ∉ passed) :
    (settled (passed ++ ["vcpu"]) tag && decide (tag ≠ "numatune") && decide (tag ≠ "cputune")) =
      settled passed tag := by
  unfold settled
  split_ifs with hBacking hTune
  · simp [hBacking]
  · rcases hTune with rfl | rfl <;> simp [h]
  · rw [not_or] at hTune
    simp [hTune]

end Tags

/-! ## Orders in which no child is passed over -/

def before (tag : String) (order : List String) : List String := order.takeWhile (· ≠ tag)

def behind (tag : String) (order : List String) : List String := (order.dropWhile (· ≠ tag)).tail

/-- As many children follow the visit of `currentMemory` unseen as it removes
before it, less the one it inserts. -/
def MemoryOrderly (config : Config) (pre post : List String) : Prop :=
  ∀ tag ∈ (post.filter (kept (pre ++ ["currentMemory"]))).take
      (pre.count "memoryBacking" - (backing config).length),
    tag ∉ rewrittenTags

/-- The new `cputune` stands as far behind `vcpu` as children of that tag stood
before it, and the loop goes on behind it. -/
structure VcpuOrderly (pre post : List String) : Prop where
  tuned : ∀ tag ∈ (post.filter fun tag => tag ≠ "cputune" && kept pre tag).take (pre.count "cputune"),
    tag = "numatune" ∨ tag = "memoryBacking"
  passed : ∀ tag ∈ (post.filter (kept (pre ++ ["vcpu"]))).take
      (pre.count "cputune" + pre.count "numatune" - 1),
    tag ∉ rewrittenTags

/-- The new `cpu` is pushed on to the end, past all that is behind it. -/
def CpuOrderly (post : List String) : Prop := ∀ tag ∈ post, tag ∉ rewrittenTags

structure Orderly (config : Config) (order : List String) : Prop where
  memory : MemoryOrderly config (before "currentMemory" order) (behind "currentMemory" order)
  vcpu : VcpuOrderly (before "vcpu" order) (behind "vcpu" order)
  cpu : CpuOrderly (behind "cpu" order)

section Splits

variable {tag : String} {pre post : List String}

theorem before_append (h : tag ∉ pre) : before tag (pre ++ tag :: post) = pre := by
  rw [before, List.takeWhile_append_of_pos, List.takeWhile_cons_of_neg (by simp), List.append_nil]
  intro t ht
  simpa using fun heq : t = tag => h (heq ▸ ht)

theorem behind_append (h : tag ∉ pre) : behind tag (pre ++ tag :: post) = post := by
  rw [behind, List.dropWhile_append_of_pos, List.dropWhile_cons_of_neg (by simp), List.tail_cons]
  intro t ht
  simpa using fun heq : t = tag => h (heq ▸ ht)

end Splits

/-! ## The elements passed -/

def tune (host : Host) : Element := cputune ((vcpupins host host.vcpuCount).getD [])

@[simp] theorem tune_tag (host : Host) : (tune host).tag = "cputune" := rfl

/-- What stands for a child once it and all the others have been visited; the new
`cpu` is not among these. -/
def place (host : Host) (config : Config) (e : Element) : List Element :=
  if e.tag = "vcpu" then [written host config e, tune host]
  else if e.tag = "currentMemory" then written host config e :: backing config
  else if e.tag ∈ "cpu" :: helperTags then []
  else [written host config e]

section Passed

variable {host : Host} {config : Config} {pre seg M : List Element} {e : Element}

theorem place_of_plain (h : e.tag ∉ rewrittenTags) :
    place host config e = if e.tag ∉ helperTags then [e] else [] := by
  simp only [rewrittenTags, List.mem_cons, List.not_mem_nil, or_false, not_or] at h
  obtain ⟨hMemory, hCurrent, hVcpu, hOs, hCpu⟩ := h
  rw [place, if_neg hVcpu, if_neg hCurrent]
  have hWritten : written host config e = e := by
    rw [written, if_neg hOs, if_neg hVcpu, if_neg (not_or.mpr ⟨hMemory, hCurrent⟩)]
  simp only [List.mem_cons, hCpu, false_or, hWritten, ite_not]

theorem flatMap_place_of_plain (h : ∀ e ∈ seg, e.tag ∉ rewrittenTags) :
    seg.flatMap (place host config) = seg.filter fun e => e.tag ∉ helperTags := by
  induction seg with
  | nil => rfl
  | cons e seg ih =>
    rw [List.forall_mem_cons] at h
    rw [List.flatMap_cons, ih h.2, place_of_plain h.1, List.filter_cons]
    split_ifs <;> simp_all

/-- The children of `seg` that still stand once `pre` is passed. -/
def left (passed : List String) (seg : List Element) : List Element :=
  seg.filter fun e => kept passed e.tag

/-- `M` is what has become of the children `pre` that the loop has passed. -/
structure Passed (host : Host) (config : Config) (pre M : List Element) : Prop where
  placed : (M.filter fun e => settled (tags pre) e.tag) = pre.flatMap (place host config)
  waiting : ∀ tag ∈ helperTags, kept (tags pre) tag = true → (tags M).count tag = (tags pre).count tag
  cpu : "cpu" ∉ tags pre
  mode : "cpu" ∉ tags M

theorem passed_nil : Passed host config [] [] :=
  ⟨rfl, fun _ _ _ => rfl, nofun, nofun⟩

theorem count_left {passed : List String} {tag : String} (h : kept passed tag = true) :
    (tags (left passed seg)).count tag = (tags seg).count tag := by
  induction seg with
  | nil => rfl
  | cons e seg ih =>
    rw [left, List.filter_cons]
    split_ifs with he
    · rw [tags_cons, tags_cons, List.count_cons, List.count_cons]
      exact congrArg (· + _) ih
    · have hne : e.tag ≠ tag := fun heq => he (heq ▸ h)
      rw [tags_cons, List.count_cons_of_ne hne]
      exact ih

/-- Children that no visit is for are passed, whether they are seen or not. -/
theorem passed_skip (h : Passed host config pre M) (hSeg : ∀ e ∈ seg, e.tag ∉ rewrittenTags) :
    Passed host config (pre ++ seg) (M ++ left (tags pre) seg) := by
  have hTags : ∀ t ∈ tags seg, t ∉ rewrittenTags := List.forall_mem_map.mpr hSeg
  have hCpu : "cpu" ∉ tags seg := fun hIn => hTags _ hIn (by decide)
  refine ⟨?_, fun tag hTag hKept => ?_, ?_, ?_⟩
  · rw [tags_append, settled_append hTags, List.filter_append, h.placed, List.flatMap_append,
      flatMap_place_of_plain hSeg, left, List.filter_filter]
    refine congrArg _ (List.filter_congr fun e _ => ?_)
    rw [Bool.and_comm, kept_and_settled]
  · rw [tags_append, kept_append hTags] at hKept
    rw [tags_append, tags_append, List.count_append, List.count_append, h.waiting tag hTag hKept,
      count_left hKept]
  · rw [tags_append, List.mem_append]
    exact not_or.mpr ⟨h.cpu, hCpu⟩
  · rw [tags_append, List.mem_append, not_or]
    refine ⟨h.mode, fun hIn => hCpu ?_⟩
    obtain ⟨e, he, hTag⟩ := mem_tags.mp hIn
    exact mem_tags.mpr ⟨e, List.mem_of_mem_filter he, hTag⟩

theorem tag_of_mem_backing {b : Element} (h : b ∈ backing config) : b.tag = "memoryBacking" := by
  obtain ⟨size, -, rfl⟩ := Option.map_eq_some_iff.mp (Option.mem_toList.mp h)
  rfl

theorem settled_of_mem_place {passed : List String} {b : Element} (hb : b ∈ place host config e) :
    settled (passed ++ [e.tag]) b.tag = true := by
  have hSelf : e.tag ∉ helperTags → settled (passed ++ [e.tag]) e.tag = true := by
    intro hTag
    have h := kept_and_settled (passed ++ [e.tag]) e.tag
    rw [decide_eq_true hTag, Bool.and_eq_true] at h
    exact h.2
  unfold place at hb
  split_ifs at hb with hVcpu hMemory hNone
  · rcases List.mem_pair.mp hb with rfl | rfl
    · exact written_tag host config e ▸ hSelf (hVcpu ▸ by decide)
    · simp [settled, hVcpu]
  · rcases List.mem_cons.mp hb with rfl | hb
    · exact written_tag host config e ▸ hSelf (hMemory ▸ by decide)
    · rw [tag_of_mem_backing hb]
      simp [settled, hMemory]
  · cases hb
  · obtain rfl := List.mem_singleton.mp hb
    exact written_tag host config e ▸ hSelf fun hIn => hNone (List.mem_cons_of_mem _ hIn)

theorem tag_ne_cpu_of_mem_place {b : Element} (hb : b ∈ place host config e) : b.tag ≠ "cpu" := by
  unfold place at hb
  split_ifs at hb with hVcpu hMemory hNone
  · rcases List.mem_pair.mp hb with rfl | rfl
    · rw [written_tag, hVcpu]
      decide
    · simp [tune, cputune]
  · rcases List.mem_cons.mp hb with rfl | hb
    · rw [written_tag, hMemory]
      decide
    · rw [tag_of_mem_backing hb]
      decide
  · cases hb
  · rw [List.mem_singleton.mp hb, written_tag]
    exact fun heq => hNone (heq ▸ List.mem_cons_self)

/-- A visit puts what stands for its child behind what it has left of the elements
passed. -/
theorem passed_place (h : Passed host config pre M) (he : e.tag ∈ rewrittenTags)
    (hCpu : e.tag ≠ "cpu") {M' : List Element}
    (hPlaced : (M'.filter fun a => settled (tags pre ++ [e.tag]) a.tag) =
      M.filter fun a => settled (tags pre) a.tag)
    (hCount : ∀ tag ∈ helperTags, kept (tags pre ++ [e.tag]) tag = true →
      kept (tags pre) tag = true ∧ (tags M').count tag = (tags M).count tag)
    (hSub : M'.Sublist M) :
    Passed host config (pre ++ [e]) (M' ++ place host config e) := by
  have hTags : tags (pre ++ [e]) = tags pre ++ [e.tag] := tags_append pre [e]
  refine ⟨?_, fun tag hTag hKept => ?_, ?_, ?_⟩
  · rw [hTags, List.filter_append, hPlaced, h.placed, List.flatMap_append, List.flatMap_singleton,
      List.filter_eq_self.mpr fun b hb => settled_of_mem_place hb]
  · rw [hTags] at hKept
    obtain ⟨hWaits, hSame⟩ := hCount tag hTag hKept
    have hNew : tag ∉ tags (place host config e) := by
      intro hIn
      obtain ⟨b, hb, rfl⟩ := mem_tags.mp hIn
      have hBoth := kept_and_settled (tags pre ++ [e.tag]) b.tag
      rw [hKept, settled_of_mem_place hb, decide_eq_false (not_not.mpr hTag)] at hBoth
      cases hBoth
    have hOld : e.tag ≠ tag := fun heq => not_mem_helperTags_of_mem he (heq ▸ hTag)
    rw [hTags, tags_append, List.count_append, List.count_append, hSame, h.waiting tag hTag hWaits,
      List.count_eq_zero.mpr hNew, List.count_singleton, if_neg (by simpa using hOld)]
  · rw [hTags, List.mem_append, not_or, List.mem_singleton]
    exact ⟨h.cpu, hCpu.symm⟩
  · rw [tags_append, List.mem_append, not_or]
    refine ⟨fun hIn => h.mode ((hSub.map Element.tag).subset hIn), fun hIn => ?_⟩
    obtain ⟨b, hb, hTag⟩ := mem_tags.mp hIn
    exact tag_ne_cpu_of_mem_place hb hTag

theorem passed_written (h : Passed host config pre M) (he : e.tag = "memory" ∨ e.tag = "os") :
    Passed host config (pre ++ [e]) (M ++ [written host config e]) := by
  have hKept : kept (tags pre ++ [e.tag]) = kept (tags pre) := by
    funext tag
    rcases he with he | he <;> simp [kept, he]
  have hSettled : settled (tags pre ++ [e.tag]) = settled (tags pre) := by
    funext tag
    rcases he with he | he <;> simp [settled, he]
  have hPlace : place host config e = [written host config e] := by
    rcases he with he | he <;> simp [place, he, helperTags]
  have hMem : e.tag ∈ rewrittenTags ∧ e.tag ≠ "cpu" := by
    rcases he with he | he <;> rw [he] <;> decide
  rw [← hPlace]
  refine passed_place h hMem.1 hMem.2 ?_ (fun tag _ hWaits => ?_) (List.Sublist.refl M)
  · rw [hSettled]
  · rw [hKept] at hWaits
    exact ⟨hWaits, rfl⟩

theorem passed_currentMemory (h : Passed host config pre M) (he : e.tag = "currentMemory")
    (hNew : "currentMemory" ∉ tags pre) :
    Passed host config (pre ++ [e])
      (removeTag M "memoryBacking" ++ written host config e :: backing config) := by
  have hPlace : place host config e = written host config e :: backing config := by
    simp [place, he]
  rw [← hPlace]
  refine passed_place h (he ▸ by decide) (he ▸ by decide) ?_ (fun tag _ hKept => ?_)
    (removeTag_sublist M _)
  · rw [removeTag, List.filter_filter, he]
    exact List.filter_congr fun a _ => settled_currentMemory hNew
  · rw [he, kept_currentMemory, Bool.and_eq_true, decide_eq_true_eq] at hKept
    exact ⟨hKept.1, count_removeTag hKept.2⟩

theorem passed_vcpu (h : Passed host config pre M) (he : e.tag = "vcpu") (hNew : "vcpu" ∉ tags pre) :
    Passed host config (pre ++ [e])
      (removeTag (removeTag M "cputune") "numatune" ++ [written host config e, tune host]) := by
  have hPlace : place host config e = [written host config e, tune host] := by
    simp [place, he]
  rw [← hPlace]
  refine passed_place h (he ▸ by decide) (he ▸ by decide) ?_ (fun tag _ hKept => ?_)
    ((removeTag_sublist _ _).trans (removeTag_sublist M _))
  · rw [removeTag, removeTag, List.filter_filter, List.filter_filter, he]
    exact List.filter_congr fun a _ => settled_vcpu hNew
  · simp only [he, kept_vcpu, Bool.and_eq_true, decide_eq_true_eq] at hKept
    exact ⟨hKept.2.2, by rw [count_removeTag hKept.1, count_removeTag hKept.2.1]⟩

end Passed

/-! ## What every visit keeps -/

section Visit

variable {host : Host} {config : Config} {front : List Element} {child : Element}
  {rest main : List Element}

theorem visit_cases (hMain : visit host config front child rest = some main) :
    (child.tag ∉ ["vcpu", "currentMemory", "cpu"] ∧ main = front ++ written host config child :: rest) ∨
    (child.tag = "currentMemory" ∧ main = removeTag front "memoryBacking" ++
      written host config child :: (backing config ++ removeTag rest "memoryBacking")) ∨
    (child.tag = "vcpu" ∧ (∃ pins, vcpupins host host.vcpuCount = some pins) ∧
      main = removeTag (removeTag front "cputune") "numatune" ++ written host config child ::
        (removeTag ((removeTag rest "cputune").take ((tags front).count "cputune")) "numatune" ++
          tune host ::
            removeTag ((removeTag rest "cputune").drop ((tags front).count "cputune")) "numatune")) ∨
    (child.tag = "cpu" ∧
      main = pyInsert (removeTag front "cpu" ++ removeTag rest "cpu") (front.length + 1) cpuMode) := by
  by_cases hPlain : child.tag ∉ ["vcpu", "currentMemory", "cpu"]
  · rw [visit_plain hPlain] at hMain
    exact .inl ⟨hPlain, (Option.some.inj hMain).symm⟩
  · simp only [List.mem_cons, List.not_mem_nil, or_false, not_not] at hPlain
    rcases hPlain with hVcpu | hMemory | hCpu
    · rw [visit_vcpu hVcpu] at hMain
      obtain ⟨pins, hPins, rfl⟩ := Option.map_eq_some_iff.mp hMain
      exact .inr (.inr (.inl ⟨hVcpu, ⟨pins, hPins⟩, by rw [tune, hPins, Option.getD_some]⟩))
    · rw [visit_currentMemory hMemory] at hMain
      exact .inr (.inl ⟨hMemory, (Option.some.inj hMain).symm⟩)
    · rw [visit_cpu hCpu] at hMain
      exact .inr (.inr (.inr ⟨hCpu, (Option.some.inj hMain).symm⟩))

theorem mem_removeTag_of_rewritten {tag : String} {l : List Element} {e : Element} (he : e ∈ l)
    (hTag : e.tag ∈ rewrittenTags) (hHelper : tag ∈ helperTags) : e ∈ removeTag l tag :=
  mem_removeTag.mpr ⟨he, fun heq => not_mem_helperTags_of_mem hTag (heq ▸ hHelper)⟩

/-- Of the elements passed, no visit removes one that the loop rewrites, but that of
another of its tag. -/
theorem visit_front (hMain : visit host config front child rest = some main) {e : Element}
    (he : e ∈ front) (hTag : e.tag ∈ rewrittenTags) (hne : e.tag ≠ child.tag) :
    e ∈ main.take (front.length + 1) := by
  rcases visit_cases hMain with ⟨-, rfl⟩ | ⟨-, rfl⟩ | ⟨-, -, rfl⟩ | ⟨hCpu, rfl⟩
  · exact mem_take_append (Nat.le_succ _) he
  · refine mem_take_append ?_ (mem_removeTag_of_rewritten he hTag (by decide))
    exact (removeTag_sublist front _).length_le.trans (Nat.le_succ _)
  · refine mem_take_append ?_ (mem_removeTag_of_rewritten
      (mem_removeTag_of_rewritten he hTag (by decide)) hTag (by decide))
    exact (((removeTag_sublist _ _).trans (removeTag_sublist front _)).length_le).trans (Nat.le_succ _)
  · rw [hCpu] at hne
    have hLength := (removeTag_sublist front "cpu").length_le
    have hIn : e ∈ (removeTag front "cpu" ++ removeTag rest "cpu").take (front.length + 1) :=
      mem_take_append (hLength.trans (Nat.le_succ _)) (mem_removeTag.mpr ⟨he, hne⟩)
    rw [pyInsert, List.take_append, List.take_take, Nat.min_self]
    exact List.mem_append_left _ hIn

theorem count_pyInsert (l : List Element) (pos : Nat) (e : Element) (tag : String) :
    (tags (pyInsert l pos e)).count tag = (tags l).count tag + (tags [e]).count tag := by
  have hParts : tags l = tags (l.take pos) ++ tags (l.drop pos) := by
    rw [← tags_append, List.take_append_drop]
  rw [pyInsert, tags_append, List.count_append, hParts, List.count_append, tags_cons, tags_cons,
    List.count_cons, tags_nil, List.count_singleton]
  omega

theorem count_take_drop (l : List Element) (k : Nat) (tag : String) :
    (tags (l.take k)).count tag + (tags (l.drop k)).count tag = (tags l).count tag := by
  rw [← List.count_append, ← tags_append, List.take_append_drop]

theorem visit_count (hMain : visit host config front child rest = some main) {tag : String}
    (hTag : tag ∈ rewrittenTags) :
    (tags main).count tag ≤ (tags (front ++ child :: rest)).count tag := by
  have hne : ∀ helper ∈ helperTags, tag ≠ helper := fun helper hHelper heq =>
    not_mem_helperTags_of_mem hTag (heq ▸ hHelper)
  rw [tags_append, List.count_append, tags_cons, List.count_cons]
  rcases visit_cases hMain with ⟨-, rfl⟩ | ⟨-, rfl⟩ | ⟨-, -, rfl⟩ | ⟨hCpu, rfl⟩
  · rw [tags_append, List.count_append, tags_cons, List.count_cons, written_tag]
  · have hBacking : (tags (backing config)).count tag = 0 := by
      refine List.count_eq_zero.mpr fun hIn => ?_
      obtain ⟨b, hb, rfl⟩ := mem_tags.mp hIn
      exact hne _ (by decide) (tag_of_mem_backing hb)
    simp only [tags_append, List.count_append, tags_cons, List.count_cons, written_tag, hBacking,
      count_removeTag (hne "memoryBacking" (by decide))]
    omega
  · have hParts := count_take_drop (removeTag rest "cputune") ((tags front).count "cputune") tag
    have hTune : (tune host).tag ≠ tag := fun heq => hne "cputune" (by decide) heq.symm
    rw [count_removeTag (hne "cputune" (by decide))] at hParts
    simp only [tags_append, List.count_append, tags_cons, List.count_cons, written_tag,
      count_removeTag (hne "numatune" (by decide)), count_removeTag (hne "cputune" (by decide))]
    rw [if_neg (by simpa using hTune)]
    omega
  · rw [count_pyInsert, tags_append, List.count_append]
    by_cases hSelf : tag = "cpu"
    · have hNone : ∀ l, (tags (removeTag l "cpu")).count tag = 0 := fun l =>
        List.count_eq_zero.mpr fun hIn => by
          obtain ⟨b, hb, heq⟩ := mem_tags.mp hIn
          exact (mem_removeTag.mp hb).2 (heq.trans hSelf)
      rw [hNone, hNone, hSelf, if_pos (by simpa using hCpu)]
      exact Nat.le_add_left _ _
    · rw [count_removeTag hSelf, count_removeTag hSelf]
      have hMode : (tags [cpuMode]).count tag = 0 :=
        List.count_eq_zero.mpr fun hIn => hSelf (List.mem_singleton.mp hIn)
      omega

/-- The children of tags that only a visit of `vcpu` removes or inserts. -/
def lasting (e : Element) : Bool :=
  e.tag ∉ ["memory", "currentMemory", "os", "cpu", "numatune", "memoryBacking"]

theorem lasting_removeTag {tag : String}
    (hTag : tag ∈ ["memory", "currentMemory", "os", "cpu", "numatune", "memoryBacking"])
    (l : List Element) : (removeTag l tag).filter lasting = l.filter lasting := by
  rw [removeTag, List.filter_filter]
  refine List.filter_congr fun e _ => ?_
  by_cases heq : e.tag = tag
  · simp [lasting, heq, hTag]
  · simp [heq]

theorem visit_lasting (hMain : visit host config front child rest = some main)
    (hVcpu : child.tag ≠ "vcpu") :
    main.filter lasting = (front ++ child :: rest).filter lasting := by
  have hChild : ∀ l, (written host config child :: l).filter lasting = (child :: l).filter lasting := by
    intro l
    by_cases hLasting : lasting child = true
    · have hSame : written host config child = child := by
        simp only [lasting, List.mem_cons, List.not_mem_nil, or_false, not_or, decide_eq_true_eq]
          at hLasting
        simp [written, hLasting, hVcpu]
      rw [hSame]
    · have hGone : ¬ lasting (written host config child) = true := by
        rwa [lasting, written_tag]
      rw [List.filter_cons_of_neg hLasting, List.filter_cons_of_neg hGone]
  rcases visit_cases hMain with ⟨-, rfl⟩ | ⟨-, rfl⟩ | ⟨hSelf, -⟩ | ⟨hCpu, rfl⟩
  · rw [List.filter_append, List.filter_append, hChild]
  · have hBacking : (backing config).filter lasting = [] := by
      refine List.filter_eq_nil_iff.mpr fun b hb => ?_
      simp [lasting, tag_of_mem_backing hb]
    rw [List.filter_append, List.filter_append, hChild, lasting_removeTag (by decide),
      List.filter_cons, List.filter_cons, List.filter_append, hBacking, List.nil_append,
      lasting_removeTag (by decide)]
  · exact absurd hSelf hVcpu
  · have hMode : ¬ lasting cpuMode = true := by decide
    have hGone : ¬ lasting child = true := by simp [lasting, hCpu]
    rw [pyInsert, List.filter_append, List.filter_cons_of_neg hMode, ← List.filter_append,
      List.take_append_drop, List.filter_append, lasting_removeTag (by decide),
      lasting_removeTag (by decide), List.filter_append, List.filter_cons_of_neg hGone]

end Visit

end Trident.Scripts.VmConfigs
