import Trident.Scripts.RecordedRuns

/-! # The figures

`gen_csv_common` of `compile_results.py`: each value of a figure is divided by, or
divides, the value of a baseline configuration.
-/

namespace Trident.Scripts

variable {F : Type}

/-- The numbers of the script with their test for zero, by which alone a division raises. -/
structure NumberOps (F : Type) extends FloatOps F where
  isZero : F → Bool
  div_isSome : ∀ a b, (div a b).isSome = !isZero b

inductive Metric where
  | time
  | pwc
  | copy
  deriving DecidableEq

/-- `exp[metric]` -/
def Entry.metric (o : NumberOps F) (e : Entry F) : Metric → F
  | .time => o.ofInt e.time
  | .pwc => e.pwc
  | .copy => o.ofInt e.copy

/-- `val`: the text `XXX` or a number. -/
inductive Value (F : Type) where
  | xxx
  | number (v : F)
  deriving DecidableEq

structure FigureRow (F : Type) where
  workload : String
  label : String
  val : Value F
  deriving DecidableEq

/-- `pretty_configs[configs.index(config)]` -/
def prettyLabel (config : String) : Option String := do
  let index ← configs.findIdx? (· == config)
  prettyConfigs[index]?

/-- The value of an entry against a denominator that is not zero. -/
def normalise (o : NumberOps F) (metric : Metric) (value denominator : F) : Option F := do
  let quotient ← o.div value denominator
  if metric = .time then (o.div (o.ofInt 1) quotient).map o.round2
  else return o.round2 quotient

def figureValue (o : NumberOps F) (metric : Metric) (value denominator : F) : Option (Value F) :=
  if o.isZero denominator then some .xxx else (normalise o metric value denominator).map .number

def figureRow (o : NumberOps F) (metric : Metric) (denominator : F) (workload config : String)
    (exp : Entry F) : Option (FigureRow F) := do
  let val ← figureValue o metric (exp.metric o metric) denominator
  let label ← prettyLabel config
  return { workload, label, val }

/-- `exp['bench'] == workload and exp['config'] == config` -/
def Entry.isFor (workload config : String) (exp : Entry F) : Bool :=
  exp.bench == workload && exp.config == config

def entriesFor (avgSummary : List (Entry F)) (workload config : String) : List (Entry F) :=
  avgSummary.filter (Entry.isFor workload config)

/-- The first loop over `avg_summary`. -/
def updateDenominator (o : NumberOps F) (avgSummary : List (Entry F)) (baseline : String)
    (metric : Metric) (denominator : F) (workload : String) : F :=
  (entriesFor avgSummary workload baseline).foldl (fun _ exp => exp.metric o metric) denominator

/-- The rows that a workload gets. -/
def workloadRows (o : NumberOps F) (avgSummary : List (Entry F)) (confs : List String)
    (metric : Metric) (denominator : F) (workload : String) : Option (List (FigureRow F)) :=
  (confs.mapM fun config =>
    (entriesFor avgSummary workload config).mapM (figureRow o metric denominator workload config)).map
      List.flatten

/-- One turn of the outer loop. -/
def figureTurn (o : NumberOps F) (avgSummary : List (Entry F)) (confs : List String)
    (baseline : String) (metric : Metric) (s : F × List (FigureRow F)) (workload : String) :
    Option (F × List (FigureRow F)) := do
  let denominator := updateDenominator o avgSummary baseline metric s.1 workload
  let rows ← workloadRows o avgSummary confs metric denominator workload
  return (denominator, s.2 ++ rows)

/-- The rows of the file, unless an exception is raised. -/
def genCsvCommon (o : NumberOps F) (avgSummary : List (Entry F)) (benchs confs : List String)
    (baseline : String) (metric : Metric) : Option (List (FigureRow F)) :=
  (benchs.foldlM (figureTurn o avgSummary confs baseline metric) (o.ofInt 1000000, [])).map Prod.snd

section Rules

theorem prettyLabel_isSome (config : String) : (prettyLabel config).isSome ↔ config ∈ configs := by
  constructor
  · intro h
    obtain ⟨label, hLabel⟩ := Option.isSome_iff_exists.mp h
    obtain ⟨index, hIndex, _⟩ := Option.bind_eq_some_iff.mp hLabel
    obtain ⟨hLt, hEq, _⟩ := List.findIdx?_eq_some_iff_getElem.mp hIndex
    exact List.mem_of_getElem (eq_of_beq hEq)
  · intro h
    have hAll : ∀ config ∈ configs, (prettyLabel config).isSome := by decide
    exact hAll config h

end Rules

/-- An entry that the inner loops come to, with the names that they hold then. -/
structure Cell (F : Type) where
  workload : String
  config : String
  exp : Entry F

def cells (avgSummary : List (Entry F)) (confs : List String) (workload : String) : List (Cell F) :=
  confs.flatMap fun config => (entriesFor avgSummary workload config).map fun exp => ⟨workload, config, exp⟩

section Baselines

variable (o : NumberOps F) (avgSummary : List (Entry F)) (confs : List String) (baseline : String)
  (metric : Metric)

/-- The row is for the workload and the configuration, and a number in it is the value of this
entry of the two against a baseline entry of the same workload. -/
structure FigureRow.FromBaseline (c : Cell F) (row : FigureRow F) : Prop where
  workload : row.workload = c.workload
  label : prettyLabel c.config = some row.label
  number : ∀ value, row.val = .number value → ∃ b ∈ entriesFor avgSummary c.workload baseline,
    o.isZero (b.metric o metric) = false ∧
      normalise o metric (c.exp.metric o metric) (b.metric o metric) = some value

/-- The last baseline value of the workloads, in the order of the list; at first 1000000. -/
def lastBaseline (workloads : List String) : F :=
  ((workloads.flatMap fun workload => entriesFor avgSummary workload baseline).map
    fun e => e.metric o metric).getLastD (o.ofInt 1000000)

/-- The entry can be divided by `denominator`, and is not divided by a foreign one. -/
def Entry.Fits (denominator : F) (workload config : String) (e : Entry F) : Prop :=
  config ∈ configs ∧ (o.isZero denominator = true ∨
    entriesFor avgSummary workload baseline ≠ [] ∧ (metric = .time →
      ∀ q, o.div (e.metric o metric) denominator = some q → o.isZero q = false))

/-- What the last baseline is when the turn of each workload comes decides. -/
def BaselinesFit (benchs : List String) : Prop :=
  ∀ before workload after, benchs = before ++ workload :: after → ∀ config ∈ confs,
    ∀ e ∈ entriesFor avgSummary workload config,
      e.Fits o avgSummary baseline metric
        (lastBaseline o avgSummary baseline metric (before ++ [workload])) workload config

variable {o avgSummary confs baseline metric}

theorem normalise_isSome {value denominator : F} (hZero : o.isZero denominator = false) :
    (normalise o metric value denominator).isSome ↔
      (metric = .time → ∀ q, o.div value denominator = some q → o.isZero q = false) := by
  have hDiv := o.div_isSome value denominator
  rw [hZero, Bool.not_false, Option.isSome_iff_exists] at hDiv
  obtain ⟨q, hq⟩ := hDiv
  have hNormalise : normalise o metric value denominator =
      if metric = .time then (o.div (o.ofInt 1) q).map o.round2 else some (o.round2 q) := by
    rw [normalise, hq]
    rfl
  rw [hNormalise]
  cases Decidable.em (metric = .time) with
  | inl hTime =>
    rw [if_pos hTime, Option.isSome_map, o.div_isSome, Bool.not_eq_true']
    constructor
    · intro h _ q' hq'
      cases hq.symm.trans hq'
      exact h
    · exact fun h => h hTime q hq
  | inr hOther =>
    rw [if_neg hOther]
    exact ⟨fun _ hTime => absurd hTime hOther, fun _ => rfl⟩

theorem figureRow_fits {denominator : F} {c : Cell F}
    (hOwn : entriesFor avgSummary c.workload baseline ≠ [] →
      ∃ b ∈ entriesFor avgSummary c.workload baseline, b.metric o metric = denominator) :
    (∃ row, figureRow o metric denominator c.workload c.config c.exp = some row ∧
        FigureRow.FromBaseline o avgSummary baseline metric c row) ↔
      c.exp.Fits o avgSummary baseline metric denominator c.workload c.config := by
  rw [Entry.Fits, ← prettyLabel_isSome]
  constructor
  · rintro ⟨row, hRow, hFrom⟩
    obtain ⟨val, hVal, hRest⟩ := Option.bind_eq_some_iff.mp hRow
    obtain ⟨label, hLabel, hEnd⟩ := Option.bind_eq_some_iff.mp hRest
    cases hEnd
    refine ⟨by rw [hLabel]; rfl, ?_⟩
    cases hZero : o.isZero denominator with
    | true => exact Or.inl rfl
    | false =>
      simp only [figureValue, hZero, Bool.false_eq_true, if_false] at hVal
      obtain ⟨value, hValue, rfl⟩ := Option.map_eq_some_iff.mp hVal
      obtain ⟨b, hb, _⟩ := hFrom.number value rfl
      refine Or.inr ⟨List.ne_nil_of_mem hb, (normalise_isSome hZero).mp ?_⟩
      rw [hValue]
      rfl
  · rintro ⟨hLabel, hFits⟩
    obtain ⟨label, hLabel⟩ := Option.isSome_iff_exists.mp hLabel
    cases hZero : o.isZero denominator with
    | true =>
      refine ⟨⟨c.workload, label, .xxx⟩, ?_, rfl, hLabel, nofun⟩
      simp only [figureRow, figureValue, hZero, if_true, hLabel, Option.bind_eq_bind, Option.bind_some,
        Option.pure_def]
    | false =>
      rw [hZero, or_iff_right Bool.false_ne_true] at hFits
      obtain ⟨hBaseline, hQuotient⟩ := hFits
      obtain ⟨value, hValue⟩ := Option.isSome_iff_exists.mp ((normalise_isSome hZero).mpr hQuotient)
      obtain ⟨b, hb, rfl⟩ := hOwn hBaseline
      refine ⟨⟨c.workload, label, .number value⟩, ?_, rfl, hLabel, fun value' hValue' => ?_⟩
      · simp only [figureRow, figureValue, hZero, Bool.false_eq_true, if_false, hValue, hLabel,
          Option.map_some, Option.bind_eq_bind, Option.bind_some, Option.pure_def]
      · cases hValue'
        exact ⟨b, hb, hZero, hValue⟩

theorem workloadRows_eq (denominator : F) (workload : String) :
    workloadRows o avgSummary confs metric denominator workload =
      (cells avgSummary confs workload).mapM fun c =>
        figureRow o metric denominator c.workload c.config c.exp := by
  rw [workloadRows, cells, PyText.mapM_flatMap]
  simp only [List.mapM_map]
  rfl

/-- As `BaselinesFit`, for what is left of the list after `done`. -/
def FitAfter (o : NumberOps F) (avgSummary : List (Entry F)) (confs : List String) (baseline : String)
    (metric : Metric) (done rest : List String) : Prop :=
  ∀ before workload after, rest = before ++ workload :: after → ∀ config ∈ confs,
    ∀ e ∈ entriesFor avgSummary workload config,
      e.Fits o avgSummary baseline metric
        (lastBaseline o avgSummary baseline metric (done ++ (before ++ [workload]))) workload config

theorem fitAfter_cons {done rest : List String} {workload : String} :
    FitAfter o avgSummary confs baseline metric done (workload :: rest) ↔
      (∀ config ∈ confs, ∀ e ∈ entriesFor avgSummary workload config,
        e.Fits o avgSummary baseline metric
          (lastBaseline o avgSummary baseline metric (done ++ [workload])) workload config) ∧
      FitAfter o avgSummary confs baseline metric (done ++ [workload]) rest := by
  constructor
  · intro h
    refine ⟨h [] workload rest rfl, fun before w after hRest => ?_⟩
    have hLater := h (workload :: before) w after (by rw [hRest, List.cons_append])
    rwa [List.append_assoc, List.singleton_append]
  · rintro ⟨hFirst, hRest⟩ before w after hSplit
    cases before with
    | nil =>
      obtain ⟨rfl, rfl⟩ := List.cons.inj hSplit
      exact hFirst
    | cons v before =>
      obtain ⟨rfl, hTail⟩ := List.cons.inj hSplit
      have hLater := hRest before w after hTail
      rwa [List.append_assoc, List.singleton_append] at hLater

theorem getLastD_append {α : Type} (l l' : List α) (a : α) :
    (l ++ l').getLastD a = l'.getLastD (l.getLastD a) := by
  obtain rfl | ⟨l', b, rfl⟩ := List.eq_nil_or_concat l'
  · rw [List.append_nil]
    rfl
  · simp [List.getLastD_eq_getLast?]

theorem updateDenominator_eq (denominator : F) (workload : String) :
    updateDenominator o avgSummary baseline metric denominator workload =
      ((entriesFor avgSummary workload baseline).map fun e => e.metric o metric).getLastD denominator := by
  rw [updateDenominator]
  obtain hNil | ⟨es, b, hEs⟩ := List.eq_nil_or_concat (entriesFor avgSummary workload baseline)
  · rw [hNil]
    rfl
  · simp [hEs]

theorem lastBaseline_append (done : List String) (workload : String) :
    lastBaseline o avgSummary baseline metric (done ++ [workload]) =
      updateDenominator o avgSummary baseline metric
        (lastBaseline o avgSummary baseline metric done) workload := by
  rw [updateDenominator_eq, lastBaseline, lastBaseline, List.flatMap_append, List.map_append,
    getLastD_append, List.flatMap_singleton]

/-- A workload with a baseline entry is divided by the last of them. -/
theorem updateDenominator_own {denominator : F} {workload : String}
    (h : entriesFor avgSummary workload baseline ≠ []) :
    ∃ b ∈ entriesFor avgSummary workload baseline,
      b.metric o metric = updateDenominator o avgSummary baseline metric denominator workload := by
  obtain hNil | ⟨es, b, hEs⟩ := List.eq_nil_or_concat (entriesFor avgSummary workload baseline)
  · exact absurd hNil h
  · refine ⟨b, by simp [hEs], ?_⟩
    simp [updateDenominator_eq, hEs]

/-- The cells of what is left of the list after `done`, each with the denominator it finds. -/
def denominated (o : NumberOps F) (avgSummary : List (Entry F)) (confs : List String) (baseline : String)
    (metric : Metric) (done : List String) : List String → List (F × Cell F)
  | [] => []
  | workload :: rest =>
    (cells avgSummary confs workload).map
        (lastBaseline o avgSummary baseline metric (done ++ [workload]), ·) ++
      denominated o avgSummary confs baseline metric (done ++ [workload]) rest

theorem denominated_snd (rest done : List String) :
    (denominated o avgSummary confs baseline metric done rest).map Prod.snd =
      rest.flatMap (cells avgSummary confs) := by
  induction rest generalizing done with
  | nil => rfl
  | cons workload rest ih =>
    rw [denominated, List.map_append, ih, List.flatMap_cons, List.map_map]
    exact congrArg (· ++ _) (List.map_id _)

theorem denominated_own {rest done : List String} {x : F × Cell F}
    (hx : x ∈ denominated o avgSummary confs baseline metric done rest)
    (hBaseline : entriesFor avgSummary x.2.workload baseline ≠ []) :
    ∃ b ∈ entriesFor avgSummary x.2.workload baseline, b.metric o metric = x.1 := by
  induction rest generalizing done with
  | nil => cases hx
  | cons workload rest ih =>
    rw [denominated, List.mem_append] at hx
    cases hx with
    | inl hFirst =>
      obtain ⟨c, hc, rfl⟩ := List.mem_map.mp hFirst
      obtain ⟨config, _, hEntry⟩ := List.mem_flatMap.mp hc
      obtain ⟨exp, _, rfl⟩ := List.mem_map.mp hEntry
      rw [lastBaseline_append]
      exact updateDenominator_own hBaseline
    | inr hRest => exact ih hRest

theorem fitAfter_iff (rest done : List String) :
    FitAfter o avgSummary confs baseline metric done rest ↔
      ∀ x ∈ denominated o avgSummary confs baseline metric done rest,
        x.2.exp.Fits o avgSummary baseline metric x.1 x.2.workload x.2.config := by
  induction rest generalizing done with
  | nil =>
    refine ⟨fun _ => nofun, fun _ before workload after hSplit => ?_⟩
    simp at hSplit
  | cons workload rest ih =>
    rw [fitAfter_cons, denominated, List.forall_mem_append, ih, List.forall_mem_map, cells,
      List.forall_mem_flatMap]
    simp only [List.forall_mem_map]

/-- One `mapM` over all cells: the denominators depend on the workloads alone. -/
theorem figureTurns_eq (rest done : List String) (rows : List (FigureRow F)) :
    (rest.foldlM (figureTurn o avgSummary confs baseline metric)
        (lastBaseline o avgSummary baseline metric done, rows)).map Prod.snd =
      ((denominated o avgSummary confs baseline metric done rest).mapM fun x =>
        figureRow o metric x.1 x.2.workload x.2.config x.2.exp).map (rows ++ ·) := by
  induction rest generalizing done rows with
  | nil => simp [denominated]
  | cons workload rest ih =>
    have hNew : (((cells avgSummary confs workload).map
          (lastBaseline o avgSummary baseline metric (done ++ [workload]), ·)).mapM fun x =>
            figureRow o metric x.1 x.2.workload x.2.config x.2.exp) =
        workloadRows o avgSummary confs metric
          (lastBaseline o avgSummary baseline metric (done ++ [workload])) workload := by
      rw [workloadRows_eq, List.mapM_map]
      rfl
    rw [List.foldlM_cons, denominated, List.mapM_append, hNew, figureTurn]
    simp only [← lastBaseline_append]
    cases workloadRows o avgSummary confs metric
        (lastBaseline o avgSummary baseline metric (done ++ [workload])) workload with
    | none => rfl
    | some new =>
      simp only [Option.bind_eq_bind, Option.bind_some, Option.pure_def, ih]
      cases (denominated o avgSummary confs baseline metric (done ++ [workload]) rest).mapM fun x =>
          figureRow o metric x.1 x.2.workload x.2.config x.2.exp with
      | none => rfl
      | some later => simp

variable (o avgSummary confs baseline metric)

/-- The file is written, with each number against a baseline of its own workload, just if the
last baseline fits every entry that is divided by it. -/
theorem genCsvCommon_iff (benchs : List String) :
    (∃ rows, genCsvCommon o avgSummary benchs confs baseline metric = some rows ∧
        List.Forall₂ (FigureRow.FromBaseline o avgSummary baseline metric)
          (benchs.flatMap (cells avgSummary confs)) rows) ↔
      BaselinesFit o avgSummary confs baseline metric benchs := by
  have hRun : genCsvCommon o avgSummary benchs confs baseline metric =
      (denominated o avgSummary confs baseline metric [] benchs).mapM fun x =>
        figureRow o metric x.1 x.2.workload x.2.config x.2.exp := by
    rw [genCsvCommon]
    exact (figureTurns_eq benchs [] []).trans Option.map_id'
  rw [hRun, ← denominated_snd benchs []]
  simp only [List.forall₂_map_left_iff]
  rw [PyText.mapM_forall₂_iff]
  refine Iff.trans ?_ (fitAfter_iff benchs []).symm
  exact forall₂_congr fun x hx => figureRow_fits (denominated_own hx)

end Baselines

section Runs

def rationalNumbers : NumberOps Rat where
  toFloatOps := rationalOps
  isZero a := decide (a = 0)
  div_isSome a b := by
    simp only [rationalOps]
    split <;> simp [*]

/-- `gups` has been run with 4KB pages and `svm` has not. -/
def partialSummary : List (Entry Rat) :=
  [⟨"gups", "4KB", 100, 50, 0⟩, ⟨"svm", "2MBTHP", 40, 5, 0⟩]

theorem partialSummary_foreign :
    genCsvCommon rationalNumbers partialSummary ["gups", "svm"] ["2MBTHP"] "4KB" .pwc =
        some [⟨"svm", "2MB-THP", .number (1 / 10)⟩] ∧
      entriesFor partialSummary "svm" "4KB" = [] := by
  decide +kernel

end Runs

end Trident.Scripts
