import Trident.Scripts.RecordedRuns

/-! # Which runs are attributed to themselves

`update_workload_config` looks for the workload and the configuration anywhere in
the path of a log; `pretty` finds the name of a configuration by its position.
-/

namespace Trident.Scripts

open PyText

variable {F : Type} {o : FloatOps F}

/-- The configurations that the run scripts list, also those they keep in comments. -/
def runConfigs : List String :=
  ["4KB", "2MBTHP", "2MBHUGE", "1GBHUGE", "4KB-4KB", "2MBHUGE-2MBHUGE", "1GBHUGE-1GBHUGE",
    "TRIDENT", "HAWKEYE", "2MBTHP-F", "TRIDENT-F", "HAWKEYE-F", "TRIDENT-1G", "TRIDENT-NC",
    "TRIDENT-1G-F", "TRIDENT-NC-F", "2MBTHP-2MBTHP", "TRIDENT-TRIDENT", "HAWKEYE-HAWKEYE",
    "2MBTHP-2MBTHP-F", "TRIDENT-TRIDENT-F", "TRIDENTPV-TRIDENTPV-F"]

/-- What `configs` and `pretty_configs` say of each configuration when no two entries are joined. -/
def displayNames : List (String × String) :=
  [("4KB", "4KB"), ("2MBTHP", "2MB-THP"), ("2MBHUGE", "2MB-HUGE"), ("1GBHUGE", "1GB-HUGE"),
    ("TRIDENT", "Trident"), ("TRIDENT-1G", "Trident-1G"), ("TRIDENT-NC", "Trident-NC"),
    ("HAWKEYE", "HawkEye"), ("2MBTHP-F", "2MB-THP"), ("TRIDENT-F", "Trident"),
    ("TRIDENT-1G-F", "Trident-1G"), ("TRIDENT-NC-F", "Trident-NC"), ("HAWKEYE-F", "HawkEye"),
    ("4KB-4KB", "4KB+4KB"), ("2MBTHP-2MBTHP", "2MB+2MB"), ("1GBHUGE-1GBHUGE", "1GB+1GB"),
    ("TRIDENT-TRIDENT", "Trident+Trident"), ("HAWKEYE-HAWKEYE", "HawkEye+HawkEye"),
    ("2MBTHP-2MBTHP-F", "2MB+2MB"), ("TRIDENT-TRIDENT-F", "Trident+Trident"),
    ("TRIDENTPV-TRIDENTPV-F", "TridentPV+TridentPV")]

def displayName (config : String) : Option String := displayNames.lookup config

/-- Each log of the run is taken for one of its workload and its configuration, and a row of this
configuration carries its display name. -/
def Run.Attributed (r : Run o) : Prop :=
  (∀ k (g : Globals F), (updateWorkloadConfig (r.path k) g).currBench = r.workload ∧
    (updateWorkloadConfig (r.path k) g).currConfig = r.config) ∧
  pretty r.config = displayName r.config

def searchName (config : String) : String := "--" ++ config ++ "--"

/-- No workload or configuration that is looked for earlier stands where the caller decides. -/
structure Run.Clear (r : Run o) : Prop where
  bench : ∀ bench ∈ workloads.takeWhile (· ≠ r.workload),
    pyIn bench r.artifactRoot = false ∧ pyIn bench r.host = false ∧ pyIn bench r.date = false
  config : ∀ config ∈ configs.takeWhile (· ≠ r.config),
    pyIn (searchName config) r.artifactRoot = false ∧
    pyIn (searchName config) ("-" ++ r.host ++ "-") = false ∧
    pyIn (searchName config) ("--" ++ r.date) = false

section Words

theorem find?_eq_iff {α : Type} [DecidableEq α] {p : α → Bool} {l : List α} {a : α} (h : a ∈ l) :
    l.find? p = some a ↔ p a = true ∧ ∀ x ∈ l.takeWhile (· ≠ a), p x = false := by
  induction l with
  | nil => cases h
  | cons b l ih =>
    obtain rfl | hNe := eq_or_ne b a
    · cases hb : p b with
      | true => simp [hb]
      | false =>
        rw [List.find?_cons_of_neg (by simp [hb])]
        constructor
        · intro hFind
          have hSome := List.find?_some hFind
          rw [hb] at hSome
          cases hSome
        · rintro ⟨hTrue, _⟩
          cases hTrue
    · have hIn : a ∈ l := (List.mem_cons.mp h).resolve_left hNe.symm
      rw [List.takeWhile_cons_of_pos (by simpa using hNe), List.forall_mem_cons]
      cases hb : p b with
      | true =>
        rw [List.find?_cons_of_pos hb]
        constructor
        · intro hEq
          exact absurd (Option.some.inj hEq) hNe
        · rintro ⟨_, hFalse, _⟩
          cases hFalse
      | false =>
        rw [List.find?_cons_of_neg (by simp [hb]), ih hIn, eq_self, true_and]

variable (r : Run o)

theorem dir_split : r.dir.toList = r.artifactRoot.toList ++ '/' :: ("evaluation".toList ++
    '/' :: (r.workload.toList ++ '/' :: (r.host.toList ++ '-' :: (r.workload.toList ++
    '-' :: ([] ++ '-' :: (r.config.toList ++ '-' :: ([] ++ '-' :: r.date.toList))))))) := by
  simp [Run.dir]

/-- What the names of the two logs begin and end with. -/
def logWords : List (String × String) := [("perflog", "dat"), ("runlog", "log")]

theorem fileName_split (k : FileKind) : r.fileName k = "vmstat" ∨ ∃ w ∈ logWords,
    (r.fileName k).toList = w.1.toList ++ '-' :: (r.workload.toList ++
      '-' :: (r.host.toList ++ '-' :: (r.config.toList ++ '.' :: w.2.toList))) := by
  cases k with
  | vmstat => exact Or.inl rfl
  | perf => exact Or.inr ⟨("perflog", "dat"), by simp [logWords], by simp [Run.fileName, Run.tag]⟩
  | run => exact Or.inr ⟨("runlog", "log"), by simp [logWords], by simp [Run.fileName, Run.tag]⟩

/-- A word that is none of those of the script. -/
structure Foreign (word : List Char) : Prop where
  slash : '/' ∉ word
  dash : '-' ∉ word
  dot : '.' ∉ word
  nil : ¬ word <:+: []
  evaluation : ¬ word <:+: "evaluation".toList
  vmstat : ¬ word <:+: "vmstat".toList
  logs : ∀ w ∈ logWords, ¬ word <:+: w.1.toList ∧ ¬ word <:+: w.2.toList

theorem Foreign.not_infix_path {word : List Char} (h : Foreign word)
    (hWorkload : ¬ word <:+: r.workload.toList) (hConfig : ¬ word <:+: r.config.toList)
    (hRoot : ¬ word <:+: r.artifactRoot.toList) (hHost : ¬ word <:+: r.host.toList)
    (hDate : ¬ word <:+: r.date.toList) (k : FileKind) : ¬ word <:+: (r.path k).toList := by
  have hName : ¬ word <:+: (r.fileName k).toList := by
    obtain hVmstat | ⟨w, hw, hText⟩ := fileName_split r k
    · rw [hVmstat]
      exact h.vmstat
    · obtain ⟨hFirst, hLast⟩ := h.logs w hw
      rw [hText, infix_append_cons_iff h.dash, infix_append_cons_iff h.dash,
        infix_append_cons_iff h.dash, infix_append_cons_iff h.dot]
      simp only [hFirst, hWorkload, hHost, hConfig, hLast, or_self, not_false_eq_true]
  rw [path_toList, infix_append_cons_iff h.slash, dir_split, infix_append_cons_iff h.slash,
    infix_append_cons_iff h.slash, infix_append_cons_iff h.slash, infix_append_cons_iff h.dash,
    infix_append_cons_iff h.dash, infix_append_cons_iff h.dash, infix_append_cons_iff h.dash,
    infix_append_cons_iff h.dash]
  simp only [hRoot, h.evaluation, hWorkload, hHost, h.nil, hConfig, hDate, hName, or_self,
    not_false_eq_true]

theorem root_infix_path (k : FileKind) : r.artifactRoot.toList <:+: (r.path k).toList := by
  rw [path_toList, dir_split, List.append_assoc]
  exact (List.prefix_append _ _).isInfix

theorem dir_infix_path (k : FileKind) : r.dir.toList <:+: (r.path k).toList := by
  rw [path_toList]
  exact (List.prefix_append _ _).isInfix

theorem date_infix_path (k : FileKind) : ("--" ++ r.date).toList <:+: (r.path k).toList := by
  refine List.IsInfix.trans ?_ (dir_infix_path r k)
  rw [dir_toList, ← List.append_assoc, ← List.append_assoc, ← List.append_assoc,
    ← List.append_assoc, ← List.append_assoc, ← List.append_assoc, ← List.append_assoc]
  exact (List.suffix_append _ _).isInfix

end Words

section Benches

variable (r : Run o)

theorem workloads_foreign : ∀ bench ∈ workloads, Foreign bench.toList := by
  have h : ∀ bench ∈ workloads, '/' ∉ bench.toList ∧ '-' ∉ bench.toList ∧ '.' ∉ bench.toList ∧
      ¬ bench.toList <:+: [] ∧ ¬ bench.toList <:+: "evaluation".toList ∧
      ¬ bench.toList <:+: "vmstat".toList ∧
      ∀ w ∈ logWords, ¬ bench.toList <:+: w.1.toList ∧ ¬ bench.toList <:+: w.2.toList := by
    decide +kernel
  intro bench hBench
  obtain ⟨hSlash, hDash, hDot, hNil, hEvaluation, hVmstat, hLogs⟩ := h bench hBench
  exact ⟨hSlash, hDash, hDot, hNil, hEvaluation, hVmstat, hLogs⟩

theorem earlier_bench : ∀ bench ∈ workloads, ∀ earlier ∈ workloads.takeWhile (· ≠ bench),
    ¬ earlier.toList <:+: bench.toList := by
  decide +kernel

theorem bench_config : ∀ bench ∈ workloads, ∀ config ∈ runConfigs,
    ¬ bench.toList <:+: config.toList := by
  decide +kernel

/-- Nothing but the root, the host or the date can hide the workload of a run. -/
theorem benchOf_path_iff (hConfig : r.config ∈ runConfigs) (k : FileKind) :
    benchOf (r.path k) = some r.workload ↔ ∀ bench ∈ workloads.takeWhile (· ≠ r.workload),
      pyIn bench r.artifactRoot = false ∧ pyIn bench r.host = false ∧ pyIn bench r.date = false := by
  have hIn : pyIn r.workload (r.path k) = true :=
    (pyIn_iff _ _).mpr ((workload_infix_dir r).trans (dir_infix_path r k))
  rw [benchOf, find?_eq_iff r.known, and_iff_right hIn]
  refine forall₂_congr fun bench hBench => ?_
  have hMem : bench ∈ workloads := (List.takeWhile_prefix _).subset hBench
  have hFalse : ∀ text, pyIn bench text = false ↔ ¬ bench.toList <:+: text.toList := fun text => by
    rw [← pyIn_iff, Bool.not_eq_true]
  rw [hFalse, hFalse, hFalse, hFalse]
  constructor
  · intro hPath
    have hDate : r.date.toList <:+: ("--" ++ r.date).toList := by
      rw [String.toList_append]
      exact (List.suffix_append _ _).isInfix
    exact ⟨fun h => hPath (h.trans (root_infix_path r k)),
      fun h => hPath (h.trans ((host_infix_dir r).trans (dir_infix_path r k))),
      fun h => hPath (h.trans (hDate.trans (date_infix_path r k)))⟩
  · rintro ⟨hRoot, hHost, hDate⟩
    exact (workloads_foreign bench hMem).not_infix_path r (earlier_bench _ r.known bench hBench)
      (bench_config bench hMem _ hConfig) hRoot hHost hDate k

end Benches

section Configurations

variable (r : Run o)

theorem searchName_toList (config : String) :
    (searchName config).toList = '-' :: '-' :: (config.toList ++ ['-', '-']) := by
  simp [searchName]

theorem configs_apart : ∀ config ∈ configs ++ runConfigs, config ≠ "" ∧
    apart '-' config.toList = true ∧ apart '-' ('-' :: config.toList) = true ∧
    apart '-' config.toList.reverse = true ∧
    '/' ∉ (searchName config).toList ∧ '.' ∉ (searchName config).toList := by
  decide +kernel

theorem workloads_apart : ∀ bench ∈ workloads, bench.toList ≠ [] ∧
    '-' ∉ bench.toList ∧ apart '-' bench.toList.tail = true ∧
    ∀ w ∈ logWords, apart '-' (w.1.toList ++ '-' :: bench.toList) = true := by
  decide +kernel

theorem workloads_head : ∀ bench ∈ workloads, ∀ config ∈ configs,
    (bench.toList.take 1).all (fun c => c ∉ (searchName config).toList) = true := by
  decide +kernel

/-- The first letter of the workload and the two dashes around the configuration part the name
of the directory. -/
theorem not_infix_dirName {config : String} (hIn : config ∈ configs) (hConfig : r.config ∈ runConfigs)
    (hNe : config ≠ r.config)
    (hHost : ¬ (searchName config).toList <:+: ("-" ++ r.host ++ "-").toList)
    (hDate : ¬ (searchName config).toList <:+: ("--" ++ r.date).toList) :
    ¬ (searchName config).toList <:+: r.host.toList ++ '-' :: (r.workload.toList ++
      '-' :: '-' :: (r.config.toList ++ '-' :: '-' :: r.date.toList)) := by
  obtain ⟨_, hApart, _⟩ := configs_apart config (List.mem_append_left _ hIn)
  obtain ⟨_, hApartRun, hDashRun, _⟩ := configs_apart _ (List.mem_append_right _ hConfig)
  obtain ⟨hNonempty, _, hTail, _⟩ := workloads_apart _ r.known
  have hHead := workloads_head _ r.known
  cases hWorkload : r.workload.toList with
  | nil => exact absurd hWorkload hNonempty
  | cons c rest =>
    rw [hWorkload] at hTail hHead
    have hc : c ∉ (searchName config).toList := by simpa using hHead config hIn
    have hRest : apart '-' rest = true := hTail
    have hText : r.host.toList ++ '-' :: (c :: rest ++
        '-' :: '-' :: (r.config.toList ++ '-' :: '-' :: r.date.toList)) =
        (r.host.toList ++ ['-']) ++ c :: (rest ++
          '-' :: '-' :: (r.config.toList ++ '-' :: '-' :: r.date.toList)) := by
      simp
    rw [hText, infix_append_cons_iff hc, not_or]
    constructor
    · intro h
      have hSuffix : r.host.toList ++ ['-'] <:+: ("-" ++ r.host ++ "-").toList := by
        simp only [String.toList_append, List.append_assoc]
        exact (List.suffix_append _ _).isInfix
      exact hHost (h.trans hSuffix)
    · rw [searchName_toList] at hDate ⊢
      rw [infix_append_of_apart hRest, List.infix_cons_iff, not_or]
      constructor
      · intro h
        have hPrefix := (List.cons_prefix_cons.mp (List.cons_prefix_cons.mp h).2).2
        rw [prefix_double_iff hApart hApartRun] at hPrefix
        exact hNe (String.toList_inj.mp hPrefix)
      · have hAfter : '-' :: (r.config.toList ++ '-' :: '-' :: r.date.toList) =
            ('-' :: r.config.toList) ++ ("--" ++ r.date).toList := by
          simp
        rw [hAfter, infix_append_of_apart hDashRun]
        exact hDate

theorem not_infix_fileName {config : String} (hIn : config ∈ configs) (hConfig : r.config ∈ runConfigs)
    (hHost : ¬ (searchName config).toList <:+: ("-" ++ r.host ++ "-").toList) (k : FileKind) :
    ¬ (searchName config).toList <:+: (r.fileName k).toList := by
  obtain ⟨_, _, _, _, _, hDot⟩ := configs_apart config (List.mem_append_left _ hIn)
  obtain ⟨_, _, _, hReverse, _⟩ := configs_apart _ (List.mem_append_right _ hConfig)
  obtain ⟨_, _, _, hLogs⟩ := workloads_apart _ r.known
  have hDash : '-' ∈ (searchName config).toList := by
    rw [searchName_toList]
    exact List.mem_cons_self
  obtain hVmstat | ⟨w, hw, hText⟩ := fileName_split r k
  · rw [hVmstat]
    exact fun h => absurd (h.subset hDash) (by decide)
  · have hParts : (r.fileName k).toList = (w.1.toList ++ '-' :: r.workload.toList) ++
        (("-" ++ r.host ++ "-").toList ++ r.config.toList) ++ '.' :: w.2.toList := by
      rw [hText]
      simp
    rw [hParts, infix_append_cons_iff hDot, not_or]
    constructor
    · rw [searchName_toList] at hHost ⊢
      rw [infix_append_of_apart (hLogs w hw)]
      have hTrim : ('-' :: '-' :: config.toList) ++ ['-', '-'] <:+:
          ("-" ++ r.host ++ "-").toList ++ r.config.toList ↔
          ('-' :: '-' :: config.toList) ++ ['-', '-'] <:+: ("-" ++ r.host ++ "-").toList :=
        infix_append_of_apart_reverse hReverse
      exact fun h => hHost (hTrim.mp h)
    · have hWords : ∀ w ∈ logWords, '-' ∉ w.2.toList := by decide
      exact fun h => hWords w hw (h.subset hDash)

theorem not_infix_path {config : String} (hIn : config ∈ configs) (hConfig : r.config ∈ runConfigs)
    (hNe : config ≠ r.config)
    (hRoot : ¬ (searchName config).toList <:+: r.artifactRoot.toList)
    (hHost : ¬ (searchName config).toList <:+: ("-" ++ r.host ++ "-").toList)
    (hDate : ¬ (searchName config).toList <:+: ("--" ++ r.date).toList) (k : FileKind) :
    ¬ (searchName config).toList <:+: (r.path k).toList := by
  obtain ⟨_, _, _, _, hSlash, _⟩ := configs_apart config (List.mem_append_left _ hIn)
  obtain ⟨_, hPlain, _⟩ := workloads_apart _ r.known
  have hDash : '-' ∈ (searchName config).toList := by
    rw [searchName_toList]
    exact List.mem_cons_self
  have hEvaluation : ¬ (searchName config).toList <:+: "evaluation".toList :=
    fun h => absurd (h.subset hDash) (by decide)
  have hWorkload : ¬ (searchName config).toList <:+: r.workload.toList :=
    fun h => hPlain (h.subset hDash)
  rw [path_toList, infix_append_cons_iff hSlash, dir_split, infix_append_cons_iff hSlash,
    infix_append_cons_iff hSlash, infix_append_cons_iff hSlash]
  have hName := not_infix_dirName r hIn hConfig hNe hHost hDate
  have hFile := not_infix_fileName r hIn hConfig hHost k
  simp only [List.nil_append, hRoot, hEvaluation, hWorkload, hName, hFile, or_self, not_false_eq_true]

theorem host_infix_path : ("-" ++ r.host ++ "-").toList <:+: (r.path .perf).toList := by
  have hText : (r.fileName .perf).toList = (("perflog-" ++ r.workload).toList ++
      ("-" ++ r.host ++ "-").toList) ++ (r.config ++ ".dat").toList := by
    simp [Run.fileName, Run.tag]
  rw [path_toList, hText]
  exact ((List.suffix_append _ _).isInfix.trans (List.prefix_append _ _).isInfix).trans
    ((List.suffix_cons _ _).trans (List.suffix_append _ _)).isInfix

theorem searchName_infix_path (k : FileKind) :
    (searchName r.config).toList <:+: (r.path k).toList := by
  refine List.IsInfix.trans ?_ (dir_infix_path r k)
  have hText : r.dir.toList = (r.artifactRoot ++ "/evaluation/" ++ r.workload ++ "/" ++ r.host ++
      "-" ++ r.workload).toList ++ (searchName r.config).toList ++ r.date.toList := by
    simp [Run.dir, searchName]
  rw [hText]
  exact (List.suffix_append _ _).isInfix.trans (List.prefix_append _ _).isInfix

/-- Nothing but the root, the host or the date can hide a configuration that is listed. -/
theorem configOf_path_iff (hConfig : r.config ∈ runConfigs) :
    (∀ k, configOf (r.path k) = r.config) ↔ r.config ∈ configs ∧
      ∀ config ∈ configs.takeWhile (· ≠ r.config),
        pyIn (searchName config) r.artifactRoot = false ∧
        pyIn (searchName config) ("-" ++ r.host ++ "-") = false ∧
        pyIn (searchName config) ("--" ++ r.date) = false := by
  have hFalse : ∀ config text, pyIn (searchName config) text = false ↔
      ¬ (searchName config).toList <:+: text.toList := fun config text => by
    rw [← pyIn_iff, Bool.not_eq_true]
  have hNonempty : r.config ≠ "" := (configs_apart _ (List.mem_append_right _ hConfig)).1
  have hFind : ∀ k, configOf (r.path k) = r.config ↔
      (configs.find? fun tmp => pyIn (searchName tmp) (r.path k)) = some r.config := by
    intro k
    rw [configOf, Option.getD_eq_iff]
    exact ⟨fun h => h.resolve_right fun hNone => hNonempty hNone.2.symm, Or.inl⟩
  simp only [hFind]
  constructor
  · intro h
    have hIn : r.config ∈ configs := List.mem_of_find?_eq_some (h .perf)
    refine ⟨hIn, fun config hEarlier => ?_⟩
    have hPath : ¬ (searchName config).toList <:+: (r.path .perf).toList :=
      (hFalse _ _).mp (((find?_eq_iff hIn).mp (h .perf)).2 config hEarlier)
    rw [hFalse, hFalse, hFalse]
    exact ⟨fun hRoot => hPath (hRoot.trans (root_infix_path r _)),
      fun hHost => hPath (hHost.trans (host_infix_path r)),
      fun hDate => hPath (hDate.trans (date_infix_path r _))⟩
  · rintro ⟨hIn, hClear⟩ k
    refine (find?_eq_iff hIn).mpr ⟨(pyIn_iff _ _).mpr (searchName_infix_path r k), ?_⟩
    intro config hEarlier
    obtain ⟨hRoot, hHost, hDate⟩ := hClear config hEarlier
    rw [hFalse] at hRoot hHost hDate ⊢
    have hNe : config ≠ r.config := by simpa using List.mem_takeWhile_imp hEarlier
    exact not_infix_path r ((List.takeWhile_prefix _).subset hEarlier) hConfig hNe hRoot hHost hDate k

end Configurations

/-- The labels stand in place up to the entry that the missing comma has joined. -/
theorem pretty_eq_displayName : ∀ config ∈ runConfigs, config ∈ configs →
    (pretty config = displayName config ↔ config ∈ configs.take 15) := by
  decide +kernel

theorem currConfig_updateWorkloadConfig (log : String) (g : Globals F) :
    (updateWorkloadConfig log g).currConfig = configOf log := rfl

theorem currBench_updateWorkloadConfig_iff (r : Run o) (k : FileKind) :
    (∀ g : Globals F, (updateWorkloadConfig (r.path k) g).currBench = r.workload) ↔
      benchOf (r.path k) = some r.workload := by
  obtain ⟨bench, hBench⟩ := Option.isSome_iff_exists.mp (benchOf_path_isSome r k)
  have hEvery : ∀ g : Globals F, (updateWorkloadConfig (r.path k) g).currBench = bench := fun g => by
    simp only [updateWorkloadConfig, hBench, Option.getD_some]
  rw [hBench, Option.some_inj]
  exact ⟨fun h => (hEvery ⟨"", "", [], []⟩).symm.trans (h _), fun h g => (hEvery g).trans h⟩

/-- A run is attributed to itself when its configuration stands before the missing comma and no
earlier workload or configuration shows through the root, the host or the date; and only then. -/
theorem attributed_iff (r : Run o) (hConfig : r.config ∈ runConfigs) :
    r.Attributed ↔ r.config ∈ configs.take 15 ∧ r.Clear := by
  have hBenches := fun k => benchOf_path_iff r hConfig k
  have hConfigs := configOf_path_iff r hConfig
  constructor
  · rintro ⟨hLogs, hLabel⟩
    have hConfigOf : ∀ k, configOf (r.path k) = r.config := fun k => by
      rw [← currConfig_updateWorkloadConfig (r.path k) ⟨"", "", [], []⟩]
      exact (hLogs k _).2
    obtain ⟨hIn, hConfigClear⟩ := hConfigs.mp hConfigOf
    have hBench : benchOf (r.path .perf) = some r.workload :=
      (currBench_updateWorkloadConfig_iff r .perf).mp fun g => (hLogs .perf g).1
    exact ⟨(pretty_eq_displayName _ hConfig hIn).mp hLabel, (hBenches .perf).mp hBench, hConfigClear⟩
  · rintro ⟨hTake, hClear⟩
    have hIn : r.config ∈ configs := List.mem_of_mem_take hTake
    have hConfigOf := hConfigs.mpr ⟨hIn, hClear.config⟩
    refine ⟨fun k g => ⟨?_, ?_⟩, (pretty_eq_displayName _ hConfig hIn).mpr hTake⟩
    · exact (currBench_updateWorkloadConfig_iff r k).mpr ((hBenches k).mpr hClear.bench) g
    · rw [currConfig_updateWorkloadConfig]
      exact hConfigOf k

theorem gupsRun_attributed : gupsRun.config ∈ runConfigs ∧
    (gupsRun.Attributed ↔ gupsRun.config ∈ configs.take 15 ∧ gupsRun.Clear) :=
  ⟨by decide, attributed_iff gupsRun (by decide)⟩

/-- The logs of a `TRIDENT-TRIDENT` run belong to no configuration, the rows of a
`HAWKEYE-HAWKEYE` run get the label of another one, and under `/home/xsbench` every run is one
of `xsbench`. -/
theorem tridentRun_dropped :
    ¬ Run.Attributed { gupsRun with config := "TRIDENT-TRIDENT" } ∧
    configOf (Run.path { gupsRun with config := "TRIDENT-TRIDENT" } .perf) = "" ∧
    pretty "HAWKEYE-HAWKEYE" = some "Trident+Trident" ∧
    benchOf (Run.path { gupsRun with artifactRoot := "/home/xsbench" } .perf) = some "xsbench" := by
  refine ⟨fun h => ?_, by decide +kernel, by decide +kernel, by decide +kernel⟩
  exact absurd (h.1 .perf noEntries).2 (by decide +kernel)

end Trident.Scripts
