import Trident.Scripts.PagePolicy

/-! # Settings left over from earlier runs

Each run of a figure script drains the hugetlb pools, sets up the 4KB
baseline and then prepares its own configuration. The baseline does not
write `smart_compaction_retries` and `collapse_via_hypercall`, and neither
does the 2MB setup, so only the Trident setups start from a known state.
-/

namespace Trident.Scripts

open Glob

/-- One turn of the loop in `run_figure_*.sh` up to the launch of the benchmark,
which itself writes none of the files. -/
def runConfig (benchmark config : String) (s : System) : System :=
  cleanupSystemConfigs s |> setup4kbConfigs |> prepareSystemConfigs benchmark config

/-- Runs are given as pairs of a benchmark and a configuration. -/
def afterRuns (runs : List (String × String)) (s : System) : System :=
  runs.foldl (fun s run => runConfig run.1 run.2 s) s

def atLaunch (runs : List (String × String)) (benchmark config : String) (s : System) : System :=
  runConfig benchmark config (afterRuns runs s)

def setupFiles : List SysctlFile :=
  hugepageSettings ++ [.nrHugepages2048kB, .nrHugepages1048576kB]

/-- From the given state of the machine, no history of runs shows in the files at launch. -/
def HistoryFree (s : System) (benchmark config : String) : Prop :=
  ∀ before before' : List (String × String), ∀ f ∈ setupFiles,
    (atLaunch before benchmark config s).sysctl f = (atLaunch before' benchmark config s).sysctl f

/-- The configurations whose name reaches one of the four Trident arms. -/
def IsTridentConfig (config : String) : Prop :=
  ¬ globMatch "*2MB*" config ∧ ¬ globMatch "*HAWKEYE*" config ∧ ¬ globMatch "*1GBHUGE*" config ∧
  (config = "TRIDENT" ∨ globMatch "*TRIDENT-NC*" config ∨ globMatch "*TRIDENT-1G*" config ∨
    globMatch "*TRIDENT*PV*" config)

theorem isTridentConfig_iff (config : String) :
    IsTridentConfig config ↔ setupFor config ≠ .thp2mb ∧ setupFor config ≠ .base4kb := by
  unfold IsTridentConfig setupFor
  split_ifs <;> simp_all

theorem Setup.run_trident_const {r : Setup} (hr : r ≠ .thp2mb ∧ r ≠ .base4kb) (s t : System)
    {f : SysctlFile} (hf : f ∈ hugepageSettings) (h1gb : s.sysctl .enabled1gb = t.sysctl .enabled1gb) :
    (r.run s).sysctl f = (r.run t).sysctl f := by
  obtain ⟨hThp, hBase⟩ := hr
  cases r with
  | thp2mb => exact absurd rfl hThp
  | base4kb => exact absurd rfl hBase
  | _ =>
    simp only [hugepageSettings, List.mem_cons, List.not_mem_nil, or_false] at hf
    rcases hf with rfl | rfl | rfl | rfl | rfl | rfl | rfl | rfl | rfl | rfl | rfl | rfl <;>
      simp [Setup.run, setupTridentConfigs, setupTridentNosmartConfigs,
        setupTrident1gbonlyConfigs, setupTridentpvConfigs, h1gb]

theorem reserveHugetlbPool_trident {config : String} (h : IsTridentConfig config) (s : System) :
    reserveHugetlbPool config s = s := by
  obtain ⟨h2mb, _, h1gb, _⟩ := h
  have hHuge : ¬ globMatch "*2MBHUGE*" config = true := by
    intro hMatch
    have hLong : "*2MBHUGE*".toList = '*' :: ("2MBHUGE".toList ++ ['*']) := by decide
    have hShort : "*2MB*".toList = '*' :: ("2MB".toList ++ ['*']) := by decide
    rw [globMatch, hLong, accepts_contains_iff _ _ (by decide)] at hMatch
    refine h2mb ?_
    rw [globMatch, hShort, accepts_contains_iff _ _ (by decide)]
    exact List.IsInfix.trans (by decide) hMatch
  rw [reserveHugetlbPool, if_neg hHuge, if_neg h1gb]

theorem Setup.run_pools (r : Setup) (s : System) {f : SysctlFile}
    (hf : f = .nrHugepages2048kB ∨ f = .nrHugepages1048576kB) :
    (r.run s).sysctl f = s.sysctl f := by
  rcases hf with rfl | rfl <;> cases r <;>
    simp [Setup.run, setupTridentConfigs, setupTridentNosmartConfigs,
      setupTrident1gbonlyConfigs, setupTridentpvConfigs, setup2mbthpConfigs, setup4kbConfigs]

/-- What a Trident run shows at launch does not even depend on the state it starts from. -/
theorem runConfig_trident {config : String} (h : IsTridentConfig config) (benchmark : String)
    (s t : System) {f : SysctlFile} (hf : f ∈ setupFiles) :
    (runConfig benchmark config s).sysctl f = (runConfig benchmark config t).sysctl f := by
  rcases List.mem_append.mp hf with hf | hf
  · rw [runConfig, runConfig, prepareSystemConfigs_sysctl _ _ _ hf,
      prepareSystemConfigs_sysctl _ _ _ hf]
    apply Setup.run_trident_const ((isTridentConfig_iff config).mp h) _ _ hf
    simp [setup4kbConfigs]
  · have hPool : f = .nrHugepages2048kB ∨ f = .nrHugepages1048576kB := by simpa using hf
    have hFile : f ≠ .nrHugepagesMempolicy := by rcases hPool with rfl | rfl <;> decide
    simp only [runConfig, prepareSystemConfigs, Setup.run_pools _ _ hPool, tee_sysctl, if_neg hFile,
      reserveHugetlbPool_trident h, adjustHugetlbPages_sysctl]
    rcases hPool with rfl | rfl <;> simp [setup4kbConfigs, cleanupSystemConfigs]

theorem runConfig_retries (benchmark config : String) (s : System)
    (h : setupFor config = .thp2mb ∨ setupFor config = .base4kb) :
    (runConfig benchmark config s).sysctl .smartCompactionRetries =
      s.sysctl .smartCompactionRetries := by
  rw [runConfig, prepareSystemConfigs_sysctl _ _ _ (by decide)]
  rcases h with h | h <;>
    simp [h, Setup.run, setup2mbthpConfigs, setup4kbConfigs, cleanupSystemConfigs]

/-- The files at launch are independent of the runs before exactly for the Trident
configurations, whatever the state of the machine and the benchmarks. -/
theorem historyFree_iff (s : System) (benchmark config : String) :
    HistoryFree s benchmark config ↔ IsTridentConfig config := by
  constructor
  · intro hFree
    by_contra hConfig
    have hSetup : setupFor config = .thp2mb ∨ setupFor config = .base4kb := by
      by_contra h
      exact hConfig ((isTridentConfig_iff config).mpr (not_or.mp h))
    -- a run of TRIDENT leaves 5 retries behind, a run of TRIDENT-NC leaves 1
    have h := hFree [(benchmark, "TRIDENT")] [(benchmark, "TRIDENT-NC")] .smartCompactionRetries
      (by decide)
    have hFull : setupFor "TRIDENT" = .trident := by decide
    have hNc : setupFor "TRIDENT-NC" = .tridentNosmart := by decide
    rw [atLaunch, atLaunch, runConfig_retries _ _ _ hSetup, runConfig_retries _ _ _ hSetup] at h
    simp only [afterRuns, List.foldl, runConfig] at h
    rw [prepareSystemConfigs_sysctl _ _ _ (by decide),
      prepareSystemConfigs_sysctl _ _ _ (by decide), hFull, hNc] at h
    simp [Setup.run, setupTridentConfigs, setupTridentNosmartConfigs] at h
  · intro h before before' f hf
    exact runConfig_trident h benchmark _ _ hf

/-- `2MBTHP` inherits the hypercall switch and the retry count of the run before it. -/
theorem mb2thp_inherits (s : System) (f : SysctlFile)
    (hf : f = .collapseViaHypercall ∨ f = .smartCompactionRetries)
    (before : List (String × String)) (benchmark : String) :
    (atLaunch before benchmark "2MBTHP" s).sysctl f = (afterRuns before s).sysctl f := by
  have hSetup : setupFor "2MBTHP" = .thp2mb := by decide
  rcases hf with rfl | rfl <;>
    rw [atLaunch, runConfig, prepareSystemConfigs_sysctl _ _ _ (by decide), hSetup] <;>
    simp [Setup.run, setup2mbthpConfigs, setup4kbConfigs, cleanupSystemConfigs]

/-- A machine after boot, with the pool sizes of `configs.sh`. -/
def bootSystem : System where
  sysctl _ := "0"
  hugetlb2mbPages := "70000"
  hugetlb1gbPages := "140"

/-- The 2MBTHP run of `gups` starts with five retries after TRIDENT, with one after
TRIDENT-NC, and with the hypercall switched on after TRIDENTPV. -/
theorem mb2thp_history_shows :
    (atLaunch [("gups", "TRIDENT")] "gups" "2MBTHP" bootSystem).sysctl
      .smartCompactionRetries = "5" ∧
    (atLaunch [("gups", "TRIDENT-NC")] "gups" "2MBTHP" bootSystem).sysctl
      .smartCompactionRetries = "1" ∧
    (atLaunch [("gups", "TRIDENT")] "gups" "2MBTHP" bootSystem).sysctl
      .collapseViaHypercall = "0" ∧
    (atLaunch [("gups", "TRIDENTPV")] "gups" "2MBTHP" bootSystem).sysctl
      .collapseViaHypercall = "1" ∧
    ¬ HistoryFree bootSystem "gups" "2MBTHP" := by
  have hRetries5 : (atLaunch [("gups", "TRIDENT")] "gups" "2MBTHP" bootSystem).sysctl
      .smartCompactionRetries = "5" := by
    rw [mb2thp_inherits _ _ (Or.inr rfl)]
    decide
  have hRetries1 : (atLaunch [("gups", "TRIDENT-NC")] "gups" "2MBTHP" bootSystem).sysctl
      .smartCompactionRetries = "1" := by
    rw [mb2thp_inherits _ _ (Or.inr rfl)]
    decide
  refine ⟨hRetries5, hRetries1, ?_, ?_, fun h => ?_⟩
  · rw [mb2thp_inherits _ _ (Or.inl rfl)]
    decide
  · rw [mb2thp_inherits _ _ (Or.inl rfl)]
    decide
  · have hSame := h [("gups", "TRIDENT")] [("gups", "TRIDENT-NC")] .smartCompactionRetries
      (by decide)
    rw [hRetries5, hRetries1] at hSame
    exact absurd hSame (by decide)

end Trident.Scripts
