import Trident.Scripts.Sysctl

/-! # Which page policy a configuration name selects

Host-guest runs repeat the name of the policy and fragmented runs append
`-F`. The tests of `setupFor` see only the characters of the name, so most
policies keep their arm; the exact test for `TRIDENT` is the exception.
-/

namespace Trident.Scripts

open Glob

inductive PagePolicy where
  | kb4
  | mb2thp
  | hawkeye
  | mb2huge
  | gb1huge
  | trident
  | trident1g
  | tridentNc
  | tridentPv
  deriving DecidableEq, Repr

def PagePolicy.name : PagePolicy → String
  | .kb4 => "4KB"
  | .mb2thp => "2MBTHP"
  | .hawkeye => "HAWKEYE"
  | .mb2huge => "2MBHUGE"
  | .gb1huge => "1GBHUGE"
  | .trident => "TRIDENT"
  | .trident1g => "TRIDENT-1G"
  | .tridentNc => "TRIDENT-NC"
  | .tridentPv => "TRIDENTPV"

/-- `more + 1` copies of a name, joined with `-`. -/
def repeatName (name : String) : Nat → String
  | 0 => name
  | more + 1 => name ++ "-" ++ repeatName name more

def configName (p : PagePolicy) (more : Nat) (fragmented : Bool) : String :=
  repeatName p.name more ++ if fragmented then "-F" else ""

theorem repeatName_prefix (name : String) (more : Nat) :
    ∃ rest, (repeatName name more).toList = name.toList ++ rest := by
  cases more with
  | zero => exact ⟨[], by simp [repeatName]⟩
  | succ more => exact ⟨'-' :: (repeatName name more).toList, by simp [repeatName]⟩

theorem configName_prefix (p : PagePolicy) (more : Nat) (fragmented : Bool) :
    ∃ rest, (configName p more fragmented).toList = p.name.toList ++ rest := by
  obtain ⟨rest, hRest⟩ := repeatName_prefix p.name more
  exact ⟨rest ++ (if fragmented then "-F" else "").toList, by simp [configName, hRest]⟩

theorem mem_repeatName {name : String} {more : Nat} {c : Char}
    (h : c ∈ (repeatName name more).toList) : c ∈ name.toList ∨ c = '-' := by
  induction more with
  | zero => exact Or.inl h
  | succ more ih =>
    simp only [repeatName, String.toList_append, List.append_assoc, List.mem_append] at h
    rcases h with h | h | h
    · exact Or.inl h
    · exact Or.inr (by simpa using h)
    · exact ih h

theorem mem_configName {p : PagePolicy} {more : Nat} {fragmented : Bool} {c : Char}
    (h : c ∈ (configName p more fragmented).toList) :
    c ∈ p.name.toList ∨ c = '-' ∨ c = 'F' := by
  simp only [configName, String.toList_append, List.mem_append] at h
  rcases h with h | h
  · rcases mem_repeatName h with h | h
    · exact Or.inl h
    · exact Or.inr (Or.inl h)
  · cases fragmented
    · simp at h
    · exact Or.inr (by simpa using h)

theorem globMatch_configName_eq_false (p : PagePolicy) (pattern : String) (c : Char)
    (h : c ∈ pattern.toList ∧ c ≠ '*' ∧ c ∉ p.name.toList ∧ c ≠ '-' ∧ c ≠ 'F')
    (more : Nat) (fragmented : Bool) :
    globMatch pattern (configName p more fragmented) = false := by
  obtain ⟨hPattern, hStar, hName, hDash, hF⟩ := h
  by_contra hMatch
  have hMem := mem_of_accepts (Bool.not_eq_false _ ▸ hMatch) hPattern hStar
  rcases mem_configName hMem with h | h | h
  · exact hName h
  · exact hDash h
  · exact hF h

theorem globMatch_configName_eq_true (p : PagePolicy) (pattern word : String)
    (h : pattern.toList = '*' :: (word.toList ++ ['*']) ∧ '*' ∉ word.toList ∧
      word.toList <:+: p.name.toList) (more : Nat) (fragmented : Bool) :
    globMatch pattern (configName p more fragmented) = true := by
  obtain ⟨hShape, hStar, hWord⟩ := h
  obtain ⟨rest, hRest⟩ := configName_prefix p more fragmented
  rw [globMatch, hShape, hRest, accepts_contains_iff _ _ hStar]
  exact hWord.trans (List.prefix_append _ _).isInfix

theorem globMatch_paravirtual (more : Nat) (fragmented : Bool) :
    globMatch "*TRIDENT*PV*" (configName .tridentPv more fragmented) = true := by
  obtain ⟨rest, hRest⟩ := configName_prefix .tridentPv more fragmented
  have hPattern : "*TRIDENT*PV*".toList =
      '*' :: ("TRIDENT".toList ++ '*' :: ("PV".toList ++ ['*'])) := by decide
  have hText : PagePolicy.tridentPv.name.toList = "TRIDENT".toList ++ "PV".toList := by decide
  rw [globMatch, hPattern, hRest, hText, List.append_assoc]
  exact accepts_contains_two (by decide) (by decide) [] rest

theorem configName_ne_trident (p : PagePolicy) (c : Char)
    (h : c ∈ p.name.toList ∧ c ∉ "TRIDENT".toList) (more : Nat) (fragmented : Bool) :
    configName p more fragmented ≠ "TRIDENT" := by
  intro hEq
  obtain ⟨rest, hRest⟩ := configName_prefix p more fragmented
  exact h.2 (hEq ▸ hRest ▸ List.mem_append_left rest h.1)

theorem configName_trident_eq_iff (more : Nat) (fragmented : Bool) :
    configName .trident more fragmented = "TRIDENT" ↔ more = 0 ∧ fragmented = false := by
  constructor
  · intro h
    have hLength := congrArg (fun s => s.toList.length) h
    cases more with
    | zero => cases fragmented <;> simp_all [configName, repeatName, PagePolicy.name]
    | succ more => simp [configName, repeatName, PagePolicy.name] at hLength
  · rintro ⟨rfl, rfl⟩
    decide

/-- Repetition and the fragmentation suffix keep the arm of every policy but `TRIDENT`. -/
theorem setupFor_configName {p : PagePolicy} (hp : p ≠ .trident) (more : Nat)
    (fragmented : Bool) : setupFor (configName p more fragmented) = setupFor p.name := by
  have absent := fun pattern c h =>
    globMatch_configName_eq_false p pattern c h more fragmented
  have present := fun pattern word h =>
    globMatch_configName_eq_true p pattern word h more fragmented
  have other := fun c h => configName_ne_trident p c h more fragmented
  cases p with
  | trident => exact absurd rfl hp
  | kb4 =>
    have hName : setupFor PagePolicy.kb4.name = .base4kb := by decide
    have hNc := absent "*TRIDENT-NC*" 'C' (by decide)
    have h1g := absent "*TRIDENT-1G*" '1' (by decide)
    have hPv := absent "*TRIDENT*PV*" 'P' (by decide)
    rw [hName, setupFor, absent "*2MB*" '2' (by decide), absent "*HAWKEYE*" 'W' (by decide),
      absent "*1GBHUGE*" 'U' (by decide), if_neg (other '4' (by decide)), hNc, h1g, hPv]
    rfl
  | mb2thp =>
    have hName : setupFor PagePolicy.mb2thp.name = .thp2mb := by decide
    rw [hName, setupFor, present "*2MB*" "2MB" (by decide)]
    rfl
  | mb2huge =>
    have hName : setupFor PagePolicy.mb2huge.name = .thp2mb := by decide
    rw [hName, setupFor, present "*2MB*" "2MB" (by decide)]
    rfl
  | hawkeye =>
    have hName : setupFor PagePolicy.hawkeye.name = .thp2mb := by decide
    rw [hName, setupFor, absent "*2MB*" '2' (by decide), present "*HAWKEYE*" "HAWKEYE" (by decide)]
    rfl
  | gb1huge =>
    have hName : setupFor PagePolicy.gb1huge.name = .thp2mb := by decide
    rw [hName, setupFor, absent "*2MB*" '2' (by decide), absent "*HAWKEYE*" 'W' (by decide),
      present "*1GBHUGE*" "1GBHUGE" (by decide)]
    rfl
  | trident1g =>
    have hName : setupFor PagePolicy.trident1g.name = .trident1gbonly := by decide
    have hNc := absent "*TRIDENT-NC*" 'C' (by decide)
    have h1g := present "*TRIDENT-1G*" "TRIDENT-1G" (by decide)
    rw [hName, setupFor, absent "*2MB*" '2' (by decide), absent "*HAWKEYE*" 'W' (by decide),
      absent "*1GBHUGE*" 'U' (by decide), if_neg (other '1' (by decide)), hNc, h1g]
    rfl
  | tridentNc =>
    have hName : setupFor PagePolicy.tridentNc.name = .tridentNosmart := by decide
    have hNc := present "*TRIDENT-NC*" "TRIDENT-NC" (by decide)
    rw [hName, setupFor, absent "*2MB*" '2' (by decide), absent "*HAWKEYE*" 'W' (by decide),
      absent "*1GBHUGE*" 'U' (by decide), if_neg (other 'C' (by decide)), hNc]
    rfl
  | tridentPv =>
    have hName : setupFor PagePolicy.tridentPv.name = .tridentpv := by decide
    have hNc := absent "*TRIDENT-NC*" 'C' (by decide)
    have h1g := absent "*TRIDENT-1G*" '1' (by decide)
    rw [hName, setupFor, absent "*2MB*" '2' (by decide), absent "*HAWKEYE*" 'W' (by decide),
      absent "*1GBHUGE*" 'U' (by decide), if_neg (other 'P' (by decide)), hNc, h1g,
      globMatch_paravirtual more fragmented]
    rfl

/-- `TRIDENT` with anything behind it reaches the last arm, the 4KB setup. -/
theorem setupFor_trident {more : Nat} {fragmented : Bool}
    (h : ¬(more = 0 ∧ fragmented = false)) :
    setupFor (configName .trident more fragmented) = .base4kb := by
  have absent := fun pattern c h =>
    globMatch_configName_eq_false .trident pattern c h more fragmented
  have hWhole : configName .trident more fragmented ≠ "TRIDENT" :=
    fun hEq => h ((configName_trident_eq_iff more fragmented).mp hEq)
  rw [setupFor, absent "*2MB*" '2' (by decide), absent "*HAWKEYE*" 'W' (by decide),
    absent "*1GBHUGE*" 'U' (by decide), if_neg hWhole, absent "*TRIDENT-NC*" 'C' (by decide),
    absent "*TRIDENT-1G*" '1' (by decide), absent "*TRIDENT*PV*" 'P' (by decide)]
  rfl

/-- The transparent-hugepage and compaction settings: all files but the hugetlb pools. -/
def hugepageSettings : List SysctlFile :=
  [.enabled, .enabled1gb, .enabledPmd, .enabledPud, .defrag, .khugepagedCollapsePmd,
    .khugepagedCollapsePud, .pagesToScan, .collapseViaHypercall, .maxCpu, .compactionSmart,
    .smartCompactionRetries]

theorem Setup.run_congr (r : Setup) {s t : System} {f : SysctlFile}
    (h : s.sysctl f = t.sysctl f) : (r.run s).sysctl f = (r.run t).sysctl f := by
  cases r <;> simp [Setup.run, setupTridentConfigs, setupTridentNosmartConfigs,
    setupTrident1gbonlyConfigs, setupTridentpvConfigs, setup2mbthpConfigs, setup4kbConfigs, h]

@[simp] theorem adjustHugetlbPages_sysctl (benchmark : String) (s : System) :
    (adjustHugetlbPages benchmark s).sysctl = s.sysctl := by
  unfold adjustHugetlbPages
  split_ifs <;> rfl

theorem reserveHugetlbPool_sysctl (config : String) (s : System) {f : SysctlFile}
    (hf : f ∈ hugepageSettings) : (reserveHugetlbPool config s).sysctl f = s.sysctl f := by
  have hPools : f ≠ .nrHugepages2048kB ∧ f ≠ .nrHugepages1048576kB := by
    constructor <;> rintro rfl <;> exact absurd hf (by decide)
  unfold reserveHugetlbPool
  split_ifs <;> simp [hPools]

/-- The chosen setup alone decides the hugepage settings. -/
theorem prepareSystemConfigs_sysctl (benchmark config : String) (s : System) {f : SysctlFile}
    (hf : f ∈ hugepageSettings) :
    (prepareSystemConfigs benchmark config s).sysctl f =
      ((setupFor config).run s).sysctl f := by
  have hMempolicy : f ≠ .nrHugepagesMempolicy := by
    rintro rfl
    exact absurd hf (by decide)
  apply Setup.run_congr
  rw [tee_sysctl, if_neg hMempolicy, reserveHugetlbPool_sysctl config _ hf,
    adjustHugetlbPages_sysctl]

def SamePolicy (p : PagePolicy) (more : Nat) (fragmented : Bool) : Prop :=
  setupFor (configName p more fragmented) = setupFor p.name ∧
  ∀ benchmark s, ∀ f ∈ hugepageSettings,
    (prepareSystemConfigs benchmark (configName p more fragmented) s).sysctl f =
      (prepareSystemConfigs benchmark p.name s).sysctl f

theorem samePolicy_of_setupFor_eq {p : PagePolicy} {more : Nat} {fragmented : Bool}
    (h : setupFor (configName p more fragmented) = setupFor p.name) :
    SamePolicy p more fragmented := by
  refine ⟨h, fun benchmark s f hf => ?_⟩
  rw [prepareSystemConfigs_sysctl _ _ _ hf, prepareSystemConfigs_sysctl _ _ _ hf, h]

/-- A configuration name keeps the page policy it repeats unless that policy is
`TRIDENT` and the name is not just `TRIDENT`. -/
theorem samePolicy_iff (p : PagePolicy) (more : Nat) (fragmented : Bool) :
    SamePolicy p more fragmented ↔ p ≠ .trident ∨ (more = 0 ∧ fragmented = false) := by
  constructor
  · intro h
    by_contra hBad
    obtain ⟨hp, hName⟩ := not_or.mp hBad
    obtain rfl := not_not.mp hp
    have hSetup := h.1
    rw [setupFor_trident hName] at hSetup
    exact absurd hSetup (by decide)
  · rintro (hp | ⟨rfl, rfl⟩)
    · exact samePolicy_of_setupFor_eq (setupFor_configName hp more fragmented)
    · exact samePolicy_of_setupFor_eq (congrArg setupFor (by cases p <;> decide))

/-- `TRIDENT-F` of figure 10 runs with transparent huge pages off. -/
theorem trident_fragmented_runs_4kb :
    configName .trident 0 true = "TRIDENT-F" ∧
    setupFor "TRIDENT-F" = .base4kb ∧ setupFor "TRIDENT" = .trident ∧
    (∀ s, (prepareSystemConfigs "gups" "TRIDENT-F" s).sysctl .enabled = "never") ∧
    (∀ s, (prepareSystemConfigs "gups" "TRIDENT" s).sysctl .enabled = "always") ∧
    ¬ SamePolicy .trident 0 true := by
  have hF : setupFor "TRIDENT-F" = .base4kb := by decide
  have hPlain : setupFor "TRIDENT" = .trident := by decide
  refine ⟨by decide, hF, hPlain, fun s => ?_, fun s => ?_, fun h => ?_⟩
  · rw [prepareSystemConfigs_sysctl _ _ _ (by decide), hF]
    rfl
  · rw [prepareSystemConfigs_sysctl _ _ _ (by decide), hPlain]
    rfl
  · exact absurd h.1 (by decide)

end Trident.Scripts
