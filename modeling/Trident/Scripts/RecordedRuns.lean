import Trident.Scripts.Traverse

/-! # Which listings record every run once -/

namespace Trident.Scripts

open PyText

variable {F : Type} {o : FloatOps F}

section Paths

variable (r : Run o)

theorem dir_toList : r.dir.toList = (r.artifactRoot ++ "/evaluation/").toList ++ (r.workload.toList ++
    ("/".toList ++ (r.host.toList ++ ("-".toList ++ (r.workload.toList ++ ("--".toList ++
      (r.config.toList ++ ("--" ++ r.date).toList))))))) := by
  simp only [Run.dir, String.toList_append, List.append_assoc]

theorem workload_infix_dir : r.workload.toList <:+: r.dir.toList := by
  rw [dir_toList]
  exact (List.prefix_append _ _).isInfix.trans (List.suffix_append _ _).isInfix

theorem host_infix_dir : r.host.toList <:+: r.dir.toList := by
  rw [dir_toList, ← List.append_assoc, ← List.append_assoc]
  exact (List.prefix_append _ _).isInfix.trans (List.suffix_append _ _).isInfix

theorem path_toList (k : FileKind) :
    (r.path k).toList = r.dir.toList ++ '/' :: (r.fileName k).toList := by
  simp only [Run.path, String.toList_append, List.append_assoc]
  rfl

theorem benchOf_path_isSome (k : FileKind) : (benchOf (r.path k)).isSome := by
  rw [benchOf, List.find?_isSome]
  refine ⟨r.workload, r.known, ?_⟩
  rw [pyIn_iff, path_toList]
  exact (workload_infix_dir r).trans (List.prefix_append _ _).isInfix

end Paths

section OneDirectory

variable (r : Run o)

/-- What one file of the directory does to the variables carried across its files. -/
def Run.carry (k : FileKind) (c : Carried F) : Carried F :=
  match k with
  | .vmstat => { c with copy := r.migrated }
  | .run => { c with time := -1, pwc := o.ofInt (-1) }
  | .perf =>
    if configOf (r.path .perf) = "" then { c with time := -1, pwc := o.ofInt (-1) }
    else { c with time := r.duration, pwc := r.pwc }

/-- One turn of the inner loop on a file of the directory. -/
def Run.turn (k : FileKind) (s : Globals F × Carried F) : Globals F × Carried F :=
  let c := r.carry k s.2
  (recordOutput c.time c.pwc c.copy (updateWorkloadConfig (r.path k) s.1), c)

section Turns

variable (s : Globals F × Carried F)

end Turns

def start (o : FloatOps F) (g : Globals F) : Globals F × Carried F :=
  (g, { time := -1, pwc := o.ofInt (-1), copy := -1 })

end OneDirectory

section Trees

/-- What `os.walk` reports: directories that hold directories only, and run directories. -/
inductive Visit (o : FloatOps F) where
  | passing (root : String)
  | listing (w : Listing o)

def Visit.walked : Visit o → WalkedDir
  | .passing root => ⟨root, []⟩
  | .listing w => w.walked

/-- The arithmetic without rounding errors. -/
def rationalOps : FloatOps Rat where
  parse text := (pyInt text).map fun n => (n : Rat)
  ofInt n := (n : Rat)
  add a b := a + b
  mul a b := a * b
  div a b := if b = 0 then none else some (a / b)
  round2 a := ((a * 100).floor : Rat) / 100
  trunc a := if 0 ≤ a then a.floor else a.ceil
  div_neg_one a := by
    rw [if_neg (by decide)]
    rfl

def gupsRun : Run rationalOps where
  artifactRoot := "/t"
  host := "n"
  date := "20210701-12"
  workload := "gups"
  config := "4KB"
  known := by decide
  duration := 12
  initDuration := 3
  statBefore := ["# started on Thu Jul  1\n", "\n"]
  statAfter := ["400,,cycles\n", "50,,dtlb_load_misses.walk_active\n",
    "30,,dtlb_store_misses.walk_active\n"]
  untimed := by decide +kernel
  counters := { cycles := 400, loads := 50, stores := 30 }
  counted := by decide +kernel
  pwc := 20
  walked := by decide +kernel
  vmBefore :=
    { before := ["numa_pte_updates 0\n"], migrated := 4, after := ["thp_fault_alloc 1\n"],
      others := by decide +kernel }
  vmAfter :=
    { before := ["numa_pte_updates 0\n"], migrated := 11, after := ["thp_fault_alloc 9\n"],
      others := by decide +kernel }
  grows := by decide
  output := ["Running: gups\n"]
  silent := by decide +kernel

def noEntries : Globals Rat := { currBench := "", currConfig := "", benchmarks := [], summary := [] }

end Trees

end Trident.Scripts
