import Trident.Scripts.RewriteRuns

/-! # Which orders `rewrite_config` rewrites in full

A run is compared with the order `memory`, `currentMemory`, `vcpu`, `os`, `cpu`
and with a second run over its own output. The two agree for every document with
a given order of tags exactly where none of the visits misses a child.
-/

namespace Trident.Scripts.VmConfigs

open PyText

variable {host : Host} {config : Config} {D main : List Element} {e : Element} {tag : String}

/-! ## The document in the order of the rewrites -/

def canonical (main : List Element) : List Element :=
  (rewrittenTags.flatMap fun tag => main.filter fun e => e.tag = tag) ++
    main.filter fun e => e.tag ∉ rewrittenTags

/-- The children that no visit touches. -/
def other (e : Element) : Bool := e.tag ∉ rewrittenTags ++ helperTags

/-- The loop ends, rewrites `main` as it would in the canonical order, keeps the other
children, and has nothing to change in its own output. -/
def Meets (host : Host) (config : Config) (main : List Element) : Prop :=
  ∃ result, rewriteConfig host config main = some result ∧
    (∃ reference, rewriteConfig host config (canonical main) = some reference ∧
      result.Perm reference) ∧
    result.filter other = main.filter other ∧
    rewriteConfig host config result = some result

theorem perm_by_tag {order : List String} (hOrder : order.Nodup) (main : List Element) :
    ((order.flatMap fun tag => main.filter fun e => e.tag = tag) ++
      main.filter fun e => e.tag ∉ order).Perm main := by
  induction order generalizing main with
  | nil => exact List.Perm.of_eq (List.filter_eq_self.mpr fun e _ => by simp)
  | cons tag order ih =>
    obtain ⟨hNew, hNodup⟩ := List.nodup_cons.mp hOrder
    have hRest := ih hNodup (main.filter fun e => ¬ e.tag = tag)
    have hLater : (order.flatMap fun t => (main.filter fun e => ¬ e.tag = tag).filter fun e => e.tag = t) =
        order.flatMap fun t => main.filter fun e => e.tag = t := by
      refine List.flatMap_congr fun t ht => ?_
      rw [List.filter_filter]
      refine List.filter_congr fun e _ => ?_
      by_cases heq : e.tag = t
      · have hne : t ≠ tag := fun h => hNew (h ▸ ht)
        simp [heq, hne]
      · simp [heq]
    have hOthers : ((main.filter fun e => ¬ e.tag = tag).filter fun e => e.tag ∉ order) =
        main.filter fun e => e.tag ∉ tag :: order := by
      rw [List.filter_filter]
      exact List.filter_congr fun e _ => by simp [Bool.and_comm]
    rw [hLater, hOthers] at hRest
    rw [List.flatMap_cons, List.append_assoc]
    exact (hRest.append_left _).trans (by simpa using List.filter_append_perm (fun e => e.tag = tag) main)

theorem canonical_perm (main : List Element) : (canonical main).Perm main :=
  perm_by_tag (by decide) main

theorem Single.of_perm {main' : List Element} (h : Single main) (hPerm : main'.Perm main) :
    Single main' := fun tag hTag =>
  ((hPerm.map Element.tag).count_eq tag).trans (h tag hTag)

theorem tags_canonical (hSingle : Single main) :
    tags (canonical main) = rewrittenTags ++ tags (main.filter fun e => e.tag ∉ rewrittenTags) := by
  have hOne : ∀ tag ∈ rewrittenTags, tags (main.filter fun e => e.tag = tag) = [tag] := by
    intro tag hTag
    have hAll : ∀ t ∈ tags (main.filter fun e => e.tag = tag), t = tag :=
      List.forall_mem_map.mpr fun e he => by simpa using (List.mem_filter.mp he).2
    have hLength : (tags (main.filter fun e => e.tag = tag)).length = 1 := by
      rw [← hSingle tag hTag, tags, List.length_map, ← List.countP_eq_length_filter, tags, List.count,
        List.countP_map]
      exact List.countP_congr fun e _ => by simp
    rw [List.eq_replicate_iff.mpr ⟨hLength, hAll⟩]
    rfl
  rw [canonical, tags_append]
  congr 1
  rw [tags, List.map_flatMap]
  calc rewrittenTags.flatMap (fun tag => (main.filter fun e => e.tag = tag).map Element.tag)
      = rewrittenTags.flatMap fun tag => [tag] := List.flatMap_congr hOne
    _ = rewrittenTags := List.flatMap_singleton' rewrittenTags

theorem memoryOrderly_of_le {pre post : List String}
    (h : pre.count "memoryBacking" ≤ (backing config).length) : MemoryOrderly config pre post := by
  rw [MemoryOrderly, Nat.sub_eq_zero_of_le h, List.take_zero]
  exact fun _ hNil => absurd hNil List.not_mem_nil

theorem vcpuOrderly_of_free {pre post : List String} (hTune : pre.count "cputune" = 0)
    (hNuma : pre.count "numatune" = 0) : VcpuOrderly pre post := by
  constructor
  · rw [hTune, List.take_zero]
    exact fun _ hNil => absurd hNil List.not_mem_nil
  · rw [hTune, hNuma, List.take_zero]
    exact fun _ hNil => absurd hNil List.not_mem_nil

theorem orderly_canonical (hSingle : Single main) : Orderly config (tags (canonical main)) := by
  rw [tags_canonical hSingle]
  obtain ⟨rest, hRest⟩ : ∃ rest, rest = tags (main.filter fun e => e.tag ∉ rewrittenTags) := ⟨_, rfl⟩
  have hPlain : CpuOrderly rest := by
    rw [hRest]
    refine List.forall_mem_map.mpr fun e he => ?_
    simpa using (List.mem_filter.mp he).2
  have hMemory : before "currentMemory" (rewrittenTags ++ rest) = ["memory"] :=
    @before_append "currentMemory" ["memory"] (["vcpu", "os", "cpu"] ++ rest) (by decide)
  have hVcpu : before "vcpu" (rewrittenTags ++ rest) = ["memory", "currentMemory"] :=
    @before_append "vcpu" ["memory", "currentMemory"] (["os", "cpu"] ++ rest) (by decide)
  have hCpu : behind "cpu" (rewrittenTags ++ rest) = rest :=
    @behind_append "cpu" ["memory", "currentMemory", "vcpu", "os"] rest (by decide)
  rw [← hRest]
  exact ⟨memoryOrderly_of_le (hMemory ▸ Nat.zero_le _), vcpuOrderly_of_free (hVcpu ▸ rfl) (hVcpu ▸ rfl),
    hCpu.symm ▸ hPlain⟩

/-! ## The result of an orderly run -/

/-- What an orderly run leaves of `main`. -/
def rewritten (host : Host) (config : Config) (main : List Element) : List Element :=
  main.flatMap (place host config) ++ [cpuMode]

theorem count_flatMap_place {source : String} {m : Nat}
    (h : ∀ e, (tags (place host config e)).count tag = if e.tag = source then m else 0)
    (main : List Element) :
    (tags (main.flatMap (place host config))).count tag = m * (tags main).count source := by
  induction main with
  | nil => rfl
  | cons e main ih =>
    rw [List.flatMap_cons, tags_append, List.count_append, h, ih, tags_cons, List.count_cons]
    split_ifs with h₁ h₂ h₂
    · rw [Nat.mul_add, Nat.mul_one, Nat.add_comm]
    · exact absurd (beq_iff_eq.mpr h₁) h₂
    · exact absurd (beq_iff_eq.mp h₂) h₁
    · rw [Nat.zero_add, Nat.add_zero]

theorem tags_place (e : Element) : tags (place host config e) =
    if e.tag = "vcpu" then ["vcpu", "cputune"]
    else if e.tag = "currentMemory" then "currentMemory" :: tags (backing config)
    else if e.tag ∈ "cpu" :: helperTags then []
    else [e.tag] := by
  unfold place
  split_ifs with hVcpu hMemory hNone
  · simp [hVcpu]
  · simp [hMemory]
  · rfl
  · simp

theorem tags_backing (config : Config) :
    tags (backing config) = List.replicate (backing config).length "memoryBacking" := by
  cases config <;> rfl

theorem count_place_rewritten (hTag : tag ∈ rewrittenTags) (hCpu : tag ≠ "cpu") (e : Element) :
    (tags (place host config e)).count tag = if e.tag = tag then 1 else 0 := by
  simp only [rewrittenTags, List.mem_cons, List.not_mem_nil, or_false] at hTag
  rw [tags_place, tags_backing]
  rcases hTag with rfl | rfl | rfl | rfl | rfl
  all_goals split_ifs <;> simp_all [helperTags, List.count_replicate]

theorem cpu_not_mem_flatMap_place (main : List Element) :
    "cpu" ∉ tags (main.flatMap (place host config)) := by
  intro hIn
  obtain ⟨b, hb, hEq⟩ := mem_tags.mp hIn
  obtain ⟨e, -, he⟩ := List.mem_flatMap.mp hb
  exact tag_ne_cpu_of_mem_place he hEq

theorem count_rewritten (hCpu : tag ≠ "cpu") (main : List Element) :
    (tags (rewritten host config main)).count tag =
      (tags (main.flatMap (place host config))).count tag := by
  have hNone : (tags [cpuMode]).count tag = 0 :=
    List.count_eq_zero.mpr fun hIn => hCpu (List.mem_singleton.mp hIn)
  rw [rewritten, tags_append, List.count_append, hNone, Nat.add_zero]

theorem single_rewritten (hSingle : Single main) : Single (rewritten host config main) := by
  intro tag hTag
  by_cases hCpu : tag = "cpu"
  · rw [rewritten, tags_append, List.count_append, hCpu,
      List.count_eq_zero.mpr (cpu_not_mem_flatMap_place main)]
    rfl
  · rw [count_rewritten hCpu, count_flatMap_place (count_place_rewritten hTag hCpu), hSingle tag hTag]

theorem count_place_helper (e : Element) :
    (tags (place host config e)).count "cputune" = (if e.tag = "vcpu" then 1 else 0) ∧
      (tags (place host config e)).count "numatune" = (if e.tag = "vcpu" then 0 else 0) ∧
      (tags (place host config e)).count "memoryBacking" =
        if e.tag = "currentMemory" then (backing config).length else 0 := by
  rw [tags_place, tags_backing]
  split_ifs <;> simp_all [helperTags, List.count_replicate]

/-- What stands before and behind the child whose visit puts others behind it. -/
theorem rewritten_split {source : String} (hSource : source ∈ ["currentMemory", "vcpu"])
    (hSingle : Single main) : ∃ pre child post, child.tag = source ∧ source ∉ tags pre ∧
      before source (tags (rewritten host config main)) = tags (pre.flatMap (place host config)) ∧
      behind source (tags (rewritten host config main)) =
        (tags (place host config child)).tail ++ tags (rewritten host config post) := by
  have hRew : source ∈ rewrittenTags ∧ source ≠ "cpu" := by
    simp only [List.mem_cons, List.not_mem_nil, or_false] at hSource
    rcases hSource with rfl | rfl <;> decide
  have hIn : source ∈ tags main := List.count_pos_iff.mp ((hSingle source hRew.1).symm ▸ Nat.one_pos)
  obtain ⟨child, hChild, rfl⟩ := mem_tags.mp hIn
  obtain ⟨pre, post, rfl⟩ := List.append_of_mem hChild
  have hNew := (hSingle.not_mem rfl hRew.1).1
  have hFirst : child.tag ∉ tags (pre.flatMap (place host config)) := by
    rw [← List.count_eq_zero, count_flatMap_place (count_place_rewritten hRew.1 hRew.2),
      List.count_eq_zero.mpr hNew]
  obtain ⟨rest, hRest⟩ : ∃ rest, place host config child = written host config child :: rest := by
    simp only [List.mem_cons, List.not_mem_nil, or_false] at hSource
    rcases hSource with hTag | hTag <;> simp [place, hTag]
  have hSplit : tags (rewritten host config (pre ++ child :: post)) =
      tags (pre.flatMap (place host config)) ++
        child.tag :: (tags rest ++ tags (rewritten host config post)) := by
    rw [rewritten, List.flatMap_append, List.flatMap_cons, hRest, rewritten]
    simp only [List.append_assoc, List.cons_append, tags_append, tags_cons, written_tag]
  refine ⟨pre, child, post, rfl, hNew, ?_, ?_⟩
  · rw [hSplit, before_append hFirst]
  · rw [hSplit, behind_append hFirst, hRest, tags_cons, List.tail_cons]

theorem orderly_rewritten (hSingle : Single main) :
    Orderly config (tags (rewritten host config main)) := by
  have hCpu : behind "cpu" (tags (rewritten host config main)) = [] := by
    rw [rewritten, tags_append]
    exact behind_append (cpu_not_mem_flatMap_place main)
  refine ⟨memoryOrderly_of_le ?_, ?_, hCpu.symm ▸ nofun⟩
  · obtain ⟨pre, -, -, -, hNew, hBefore, -⟩ := @rewritten_split host config main "currentMemory"
      (by decide) hSingle
    rw [hBefore, count_flatMap_place fun e => (count_place_helper e).2.2, List.count_eq_zero.mpr hNew]
    exact Nat.zero_le _
  · obtain ⟨pre, -, -, -, hNew, hBefore, -⟩ := @rewritten_split host config main "vcpu" (by decide) hSingle
    have hTune := count_flatMap_place (fun e => (@count_place_helper host config e).1) pre
    have hNuma := count_flatMap_place (fun e => (@count_place_helper host config e).2.1) pre
    rw [List.count_eq_zero.mpr hNew] at hTune
    rw [hBefore]
    exact vcpuOrderly_of_free hTune (hNuma.trans (Nat.zero_mul _))

theorem place_written (e : Element) : place host config (written host config e) = place host config e := by
  unfold place
  simp only [written_tag, written_written]

theorem place_helper (h : e.tag ∈ helperTags) : place host config e = [] := by
  have hne : e.tag ≠ "vcpu" ∧ e.tag ≠ "currentMemory" := by
    constructor <;> exact fun heq => absurd (heq ▸ h) (by decide)
  rw [place, if_neg hne.1, if_neg hne.2, if_pos (List.mem_cons_of_mem _ h)]

theorem place_idem (e : Element) :
    (place host config e).flatMap (place host config) = place host config e := by
  have hBacking : (backing config).flatMap (place host config) = [] :=
    List.flatMap_eq_nil_iff.mpr fun b hb => place_helper (tag_of_mem_backing hb ▸ by decide)
  have hTune : place host config (tune host) = [] := place_helper (tune_tag host ▸ by decide)
  by_cases hVcpu : e.tag = "vcpu"
  · have hPlace : place host config e = [written host config e, tune host] := if_pos hVcpu
    conv_lhs => rw [hPlace]
    rw [List.flatMap_cons, List.flatMap_singleton, place_written, hTune, List.append_nil]
  by_cases hMemory : e.tag = "currentMemory"
  · have hPlace : place host config e = written host config e :: backing config := by
      rw [place, if_neg hVcpu, if_pos hMemory]
    conv_lhs => rw [hPlace]
    rw [List.flatMap_cons, place_written, hBacking, List.append_nil]
  by_cases hNone : e.tag ∈ "cpu" :: helperTags
  · rw [place, if_neg hVcpu, if_neg hMemory, if_pos hNone, List.flatMap_nil]
  · have hPlace : place host config e = [written host config e] := by
      rw [place, if_neg hVcpu, if_neg hMemory, if_neg hNone]
    conv_lhs => rw [hPlace]
    rw [List.flatMap_singleton, place_written]

theorem rewritten_rewritten (main : List Element) :
    rewritten host config (rewritten host config main) = rewritten host config main := by
  have hMode : place host config cpuMode = [] := rfl
  rw [rewritten, rewritten, List.flatMap_append, List.flatMap_singleton, hMode, List.append_nil,
    List.flatMap_assoc, List.flatMap_congr fun e _ => place_idem e]

theorem mem_place {b : Element} (hb : b ∈ place host config e) :
    b = written host config e ∨ b.tag ∈ helperTags := by
  unfold place at hb
  split_ifs at hb with hVcpu hMemory hNone
  · rcases List.mem_pair.mp hb with rfl | rfl
    · exact .inl rfl
    · exact .inr (tune_tag host ▸ by decide)
  · rcases List.mem_cons.mp hb with rfl | hb
    · exact .inl rfl
    · exact .inr (tag_of_mem_backing hb ▸ by decide)
  · cases hb
  · exact .inl (List.mem_singleton.mp hb)

theorem filter_other_rewritten (main : List Element) :
    (rewritten host config main).filter other = main.filter other := by
  have hPlace : ∀ e, (place host config e).filter other = [e].filter other := by
    intro e
    by_cases hTag : e.tag ∈ rewrittenTags
    · have hNone : ∀ b ∈ place host config e, ¬ other b = true := by
        intro b hb
        rcases mem_place hb with rfl | hHelper
        · simp [other, hTag]
        · simp [other, hHelper]
      rw [List.filter_eq_nil_iff.mpr hNone, List.filter_cons_of_neg (by simp [other, hTag]), List.filter_nil]
    · rw [place_of_plain hTag]
      split_ifs with hHelper
      · rw [List.filter_cons_of_neg (by simp [other, hHelper]), List.filter_nil]
      · rfl
  have hMode : [cpuMode].filter other = [] := rfl
  rw [rewritten, List.filter_append, hMode, List.append_nil, List.filter_flatMap]
  simp only [hPlace]
  rw [← List.filter_flatMap, List.flatMap_singleton']

theorem exists_vcpupins (hOrderly : Orderly config (tags main)) (hSingle : Single main)
    {result : List Element} (hResult : rewriteConfig host config main = some result) :
    (∃ pins, vcpupins host host.vcpuCount = some pins) ∧ result = rewritten host config main := by
  rcases rewriteConfig_cases hSingle hResult with ⟨-, h⟩ | ⟨hCpu, -⟩ | ⟨hBroken, -⟩
  · exact h
  · exact absurd hOrderly.cpu hCpu
  · exact absurd ⟨hOrderly.memory, hOrderly.vcpu⟩ hBroken

theorem rewriteConfig_orderly (hPins : host.vcpuCount ≤ (pySplit host.node0Cpus.toList).length)
    (hSingle : Single main) (hOrderly : Orderly config (tags main)) :
    rewriteConfig host config main = some (rewritten host config main) := by
  obtain ⟨result, hResult⟩ := @exists_rewriteConfig host config hPins main
  rw [hResult, (exists_vcpupins hOrderly hSingle hResult).2]

theorem meets_of_orderly (hPins : host.vcpuCount ≤ (pySplit host.node0Cpus.toList).length)
    (hSingle : Single main) (hOrderly : Orderly config (tags main)) : Meets host config main := by
  have hCanonical := hSingle.of_perm (canonical_perm main)
  refine ⟨_, rewriteConfig_orderly hPins hSingle hOrderly,
    ⟨_, rewriteConfig_orderly hPins hCanonical (orderly_canonical hSingle), ?_⟩,
    filter_other_rewritten main, ?_⟩
  · exact ((canonical_perm main).symm.flatMap_right _).append_right _
  · rw [rewriteConfig_orderly hPins (single_rewritten hSingle) (orderly_rewritten hSingle), rewritten_rewritten]

/-! ## Documents no part of which is rewritten already -/

/-- No child reads as a visit would leave it. -/
def Unwritten (host : Host) (config : Config) (main : List Element) : Prop :=
  ∀ e ∈ main, e.tag ∈ rewrittenTags →
    e ≠ cpuMode ∧ (e.tag ≠ "cpu" → ∀ d, e ≠ written host config d)

theorem not_unvisited (hNew : Unwritten host config main) {reference result : List Element}
    (hPerm : result.Perm (rewritten host config reference)) : ¬ Unvisited main result := by
  rintro ⟨e, he, hMain, hTag⟩
  obtain ⟨hMode, hWritten⟩ := hNew e hMain hTag
  rcases List.mem_append.mp (hPerm.mem_iff.mp he) with hPlace | hCpu
  · obtain ⟨d, -, hd⟩ := List.mem_flatMap.mp hPlace
    rcases mem_place hd with heq | hHelper
    · exact hWritten (tag_ne_cpu_of_mem_place hd) d heq
    · exact not_mem_helperTags_of_mem hTag hHelper
  · exact hMode (List.mem_singleton.mp hCpu)

/-- Where a child stands between the two, the `cputune` is behind the `vcpu` and not
next to it. -/
theorem tags_of_parted {order : List String} {o : String} (hVcpu : order.count "vcpu" = 1)
    (hTune : order.count "cputune" = 1) (hSub : ["vcpu", o, "cputune"].Sublist order)
    (ho : o ≠ "cputune") :
    (before "vcpu" order).count "cputune" = 0 ∧ (behind "vcpu" order).head? ≠ some "cputune" := by
  have hIn : "vcpu" ∈ order := List.count_pos_iff.mp (hVcpu ▸ Nat.one_pos)
  obtain ⟨pre, post, rfl⟩ := List.append_of_mem hIn
  rw [List.count_append, List.count_cons_self] at hVcpu
  have hPre : "vcpu" ∉ pre := List.count_eq_zero.mp (by omega)
  have hPost : "vcpu" ∉ post := List.count_eq_zero.mp (by omega)
  rw [before_append hPre, behind_append hPre]
  -- the two later ones are both behind the only `vcpu`
  have hLater : [o, "cputune"].Sublist post := by
    obtain ⟨l₁, l₂, hParts, h₁, h₂⟩ := List.sublist_append_iff.mp hSub
    cases l₁ with
    | nil =>
      rw [List.nil_append] at hParts
      subst hParts
      cases h₂ with
      | cons _ h => exact absurd (h.subset List.mem_cons_self) hPost
      | cons_cons _ h => exact h
    | cons a l₁ =>
      obtain ⟨rfl, -⟩ := List.cons.inj hParts
      exact absurd (h₁.subset List.mem_cons_self) hPre
  rw [List.count_append, List.count_cons_of_ne (by decide)] at hTune
  have hBehind : 0 < post.count "cputune" :=
    List.count_pos_iff.mpr (hLater.subset (List.mem_cons_of_mem o List.mem_cons_self))
  refine ⟨by omega, fun hHead => ?_⟩
  obtain ⟨rest, rfl⟩ : ∃ rest, post = "cputune" :: rest := by
    cases post with
    | nil => cases hHead
    | cons a rest => exact ⟨rest, by rw [Option.some.inj hHead]⟩
  rw [List.count_cons_self] at hTune
  have hGone : "cputune" ∉ rest := List.count_eq_zero.mp (by omega)
  cases hLater with
  | cons _ h => exact hGone (h.subset (List.mem_cons_of_mem o List.mem_cons_self))
  | cons_cons _ h => exact ho rfl

theorem not_parted (hSingle : Single main) {result : List Element}
    (hPerm : result.Perm (rewritten host config main))
    (hIdem : rewriteConfig host config result = some result) : ¬ Parted (result, []) := by
  rintro ⟨v, o, t, hv, ho, ht, -, hSub⟩
  have hResult : Single result := (single_rewritten hSingle).of_perm hPerm
  have hCount : ∀ tag, (tags result).count tag = (tags (rewritten host config main)).count tag := fun tag =>
    (hPerm.map Element.tag).count_eq tag
  have hTune : (tags result).count "cputune" = 1 := by
    rw [hCount, count_rewritten (by decide), count_flatMap_place fun e => (count_place_helper e).1,
      hSingle "vcpu" (by decide)]
  have hNuma : (tags result).count "numatune" = 0 := by
    rw [hCount, count_rewritten (by decide), count_flatMap_place fun e => (count_place_helper e).2.1, Nat.zero_mul]
  have hBacking : (tags result).count "memoryBacking" = (backing config).length := by
    rw [hCount, count_rewritten (by decide), count_flatMap_place fun e => (count_place_helper e).2.2,
      hSingle "currentMemory" (by decide), Nat.mul_one]
  have hTags : ["vcpu", o.tag, "cputune"].Sublist (tags result) := by
    have h := (hSub.trans List.filter_sublist).map Element.tag
    rw [List.append_nil, List.map_cons, List.map_cons, List.map_singleton, hv, ht] at h
    exact h
  have hOther : o.tag ≠ "cputune" := fun heq => ho (heq ▸ by decide)
  obtain ⟨hBefore, hBehind⟩ := tags_of_parted (hResult "vcpu" (by decide)) hTune hTags hOther
  have hLe : ∀ source tag, (before source (tags result)).count tag ≤ (tags result).count tag := fun _ tag =>
    List.Sublist.count_le tag (List.takeWhile_sublist _)
  rcases rewriteConfig_cases hResult hIdem with ⟨-, -, hEq⟩ | ⟨hCpu, L, hEq, -⟩ | ⟨hBroken, -⟩
  · -- an orderly run puts the two next to each other
    obtain ⟨pre, child, post, hTag, -, -, hNext⟩ := @rewritten_split host config result "vcpu"
      (by decide) hResult
    have hPlace : (tags (place host config child)).tail = ["cputune"] := by
      rw [tags_place, if_pos hTag, List.tail_cons]
    rw [rewritten, ← hEq, hPlace] at hNext
    exact hBehind (hNext ▸ rfl)
  · have hOne := hResult "cpu" (by decide)
    rw [hEq, tags_append, List.count_append, tags_cons, tags_nil] at hOne
    have hNone : "cpu" ∉ tags L := List.count_eq_zero.mp (Nat.succ.inj hOne)
    have hLast : behind "cpu" (tags result) = [] := by
      rw [hEq, tags_append]
      exact behind_append hNone
    exact hCpu (hLast.symm ▸ nofun)
  · refine hBroken ⟨memoryOrderly_of_le ((hLe _ _).trans_eq hBacking), vcpuOrderly_of_free hBefore ?_⟩
    exact Nat.le_zero.mp ((hLe _ _).trans_eq hNuma)

theorem orderly_of_meets (hSingle : Single main) (hNew : Unwritten host config main)
    (h : Meets host config main) :
    host.vcpuCount ≤ (pySplit host.node0Cpus.toList).length ∧ Orderly config (tags main) := by
  obtain ⟨result, hResult, ⟨reference, hReference, hPerm⟩, -, hIdem⟩ := h
  have hCanonical := hSingle.of_perm (canonical_perm main)
  obtain ⟨hPins, rfl⟩ := exists_vcpupins (orderly_canonical hSingle) hCanonical hReference
  refine ⟨exists_vcpupins_iff.mp hPins, ?_⟩
  have hVisited := not_unvisited hNew hPerm
  rcases rewriteConfig_cases hSingle hResult with ⟨hOrderly, -⟩ | ⟨-, L, rfl, hMissed⟩ | ⟨-, hMissed | hParted⟩
  · exact hOrderly
  · obtain ⟨e, he, hMissed⟩ := hMissed
    exact absurd ⟨e, List.mem_append_left _ he, hMissed⟩ hVisited
  · exact absurd hMissed hVisited
  · exact absurd hParted (not_parted hCanonical hPerm hIdem)

/-- The document with children of the tags of `order` and nothing in them. -/
def blank (order : List String) : List Element := order.map Element.new

theorem tags_blank (order : List String) : tags (blank order) = order := by
  rw [tags, blank, List.map_map]
  exact List.map_id order

theorem unwritten_blank (order : List String) : Unwritten host config (blank order) := by
  intro e he hTag
  obtain ⟨tag, -, rfl⟩ := List.mem_map.mp he
  rw [Element.new_tag] at hTag ⊢
  refine ⟨fun heq => List.cons_ne_nil _ _ (congrArg Element.attrib heq).symm, fun hCpu d heq => ?_⟩
  have hSame : tag = d.tag := (congrArg Element.tag heq).trans (written_tag host config d)
  unfold written at heq
  split_ifs at heq with hOs hVcpu hMemory
  · exact rewriteOs_children_ne_nil d (congrArg Element.children heq).symm
  · exact absurd (congrArg Element.text heq) nofun
  · exact absurd (congrArg Element.text heq) nofun
  · simp only [rewrittenTags, List.mem_cons, List.not_mem_nil, or_false, hSame] at hTag hCpu
    tauto

/-- A rewrite of every document with children in the order `order` does what a rewrite
in the canonical order does, and no more when it is repeated, exactly where node 0
has a CPU for each vCPU and the order lets every visit see its child. -/
theorem rewriteConfig_order_iff (host : Host) (config : Config) (order : List String)
    (hSingle : ∀ tag ∈ rewrittenTags, order.count tag = 1) :
    (∀ main, tags main = order → Meets host config main) ↔
      host.vcpuCount ≤ (pySplit host.node0Cpus.toList).length ∧ Orderly config order := by
  constructor
  · intro h
    have hBlank : Single (blank order) := by
      rwa [Single, tags_blank]
    have hMeets := orderly_of_meets hBlank (unwritten_blank order) (h _ (tags_blank order))
    rwa [tags_blank] at hMeets
  · rintro ⟨hPins, hOrderly⟩ main rfl
    exact meets_of_orderly hPins hSingle hOrderly

/-- The order in which libvirt prints a domain. -/
theorem rewriteConfig_order_iff_libvirt :
    Meets ⟨2, 65536, "0 2 4 6"⟩ .huge2mb
      (blank ["name", "memory", "currentMemory", "memoryBacking", "vcpu", "cputune", "numatune", "os",
        "features", "cpu", "devices"]) :=
  (rewriteConfig_order_iff _ _ _ (by decide)).mpr
    ⟨by decide, ⟨by unfold MemoryOrderly; decide, ⟨by decide, by decide⟩, by unfold CpuOrderly; decide⟩⟩ _
      (tags_blank _)

/-- Behind `cpu` the visit of `os` is lost. -/
theorem not_meets_os_last :
    Single (blank ["memory", "currentMemory", "vcpu", "cpu", "os"]) ∧
      ¬ Meets ⟨2, 65536, "0 2 4 6"⟩ .huge2mb
        (blank ["memory", "currentMemory", "vcpu", "cpu", "os"]) := by
  refine ⟨by unfold Single; decide, ?_⟩
  rintro ⟨result, hResult, ⟨reference, hReference, hPerm⟩, -⟩
  -- the number of children of each element
  have hLost : (rewriteConfig ⟨2, 65536, "0 2 4 6"⟩ .huge2mb
      (blank ["memory", "currentMemory", "vcpu", "cpu", "os"])).map
        (List.map fun e => (e.tag, e.children.length)) =
      some [("memory", 0), ("currentMemory", 0), ("memoryBacking", 1), ("vcpu", 0), ("cputune", 2),
        ("os", 0), ("cpu", 0)] := by decide
  have hSeen : (rewriteConfig ⟨2, 65536, "0 2 4 6"⟩ .huge2mb
      (canonical (blank ["memory", "currentMemory", "vcpu", "cpu", "os"]))).map
        (List.map fun e => (e.tag, e.children.length)) =
      some [("memory", 0), ("currentMemory", 0), ("memoryBacking", 1), ("vcpu", 0), ("cputune", 2),
        ("os", 3), ("cpu", 0)] := by decide
  rw [hResult, Option.map_some] at hLost
  rw [hReference, Option.map_some] at hSeen
  have hPairs := hPerm.map fun e => (e.tag, e.children.length)
  rw [Option.some.inj hLost, Option.some.inj hSeen] at hPairs
  exact absurd hPairs (by decide)

end Trident.Scripts.VmConfigs
