import Mathlib.Data.List.Permutation
import Trident.Scripts.CompileResults

/-! # Which runs `traverse_benchmark` records

A run directory holds three files. The results of a run are gathered over the
files of its directory and an entry is appended after each of them, so the
order in which they are listed decides what is recorded.
-/

namespace Trident.Scripts

open PyText

variable {F : Type}

/-- The lines `egrep 'migrate|th' /proc/vmstat` appends once. -/
structure Snapshot where
  before : List String
  migrated : Nat
  after : List String
  others : ∀ line ∈ before ++ after, pyIn "pgmigrate_success" line = false

def Snapshot.lines (s : Snapshot) : List String :=
  s.before ++ ("pgmigrate_success " ++ Nat.repr s.migrated ++ "\n") :: s.after

def perfMarkers : List String :=
  ["Execution Time (seconds)", ",cycles", ",dtlb_load_misses.walk_active",
    ",dtlb_store_misses.walk_active"]

/-- One finished `launch_workload`: what it and `prepare_paths` leave behind. The lines of
`perf stat` stand before and after those the script echoes. -/
structure Run (o : FloatOps F) where
  artifactRoot : String
  host : String
  date : String
  workload : String
  config : String
  known : workload ∈ workloads
  duration : Nat
  initDuration : Nat
  statBefore : List String
  statAfter : List String
  untimed : ∀ line ∈ statBefore ++ statAfter, pyIn "Execution Time (seconds)" line = false
  counters : Counters F
  counted : (statBefore ++ statAfter).foldlM (scanCounters o) (noCounters o) = some counters
  pwc : F
  walked : walkPercentage o counters = some pwc
  vmBefore : Snapshot
  vmAfter : Snapshot
  grows : vmBefore.migrated ≤ vmAfter.migrated
  output : List String
  silent : ∀ line ∈ output, ∀ marker ∈ perfMarkers, pyIn marker line = false

inductive FileKind where
  | perf
  | vmstat
  | run
  deriving DecidableEq, Repr

def executionLine (duration : Nat) : String :=
  "Execution Time (seconds): " ++ Nat.repr duration ++ "\n"

def initializationLine (duration : Nat) : String :=
  "Initialization Time (seconds): " ++ Nat.repr duration ++ "\n"

namespace Run

variable {o : FloatOps F} (r : Run o)

def dir : String :=
  r.artifactRoot ++ "/evaluation/" ++ r.workload ++ "/" ++ r.host ++ "-" ++ r.workload ++ "--" ++
    r.config ++ "--" ++ r.date

/-- What the names of the two logs have in common. -/
def tag : String := r.workload ++ "-" ++ r.host ++ "-" ++ r.config

def fileName : FileKind → String
  | .perf => "perflog-" ++ r.tag ++ ".dat"
  | .vmstat => "vmstat"
  | .run => "runlog-" ++ r.tag ++ ".log"

def path (k : FileKind) : String := r.dir ++ "/" ++ r.fileName k

def echoed : List String :=
  ["****success****\n", executionLine r.duration, initializationLine r.initDuration, "\n"]

def fileLines : FileKind → List String
  | .perf => r.statBefore ++ r.echoed ++ r.statAfter
  | .vmstat => r.vmBefore.lines ++ r.vmAfter.lines
  | .run => r.output

def migrated : Int := (r.vmAfter.migrated : Int) - r.vmBefore.migrated

def entryWith (copy : Int) : Entry F where
  bench := (benchOf (r.path .perf)).getD ""
  config := configOf (r.path .perf)
  time := r.duration
  pwc := r.pwc
  copy := copy

def entry : Entry F := r.entryWith r.migrated

end Run

/-- A run directory with the order in which `os.walk` lists its files. -/
structure Listing (o : FloatOps F) where
  run : Run o
  files : List FileKind
  perm : files.Perm [.perf, .vmstat, .run]

def Listing.walked {o : FloatOps F} (w : Listing o) : WalkedDir where
  root := w.run.dir
  files := w.files.map fun k => ⟨w.run.fileName k, w.run.fileLines k⟩

/-- The directory is not taken for a vmstat file, its configuration is one of `configs`, and
the vmstat file is listed before the perf log. -/
def Listing.Recorded {o : FloatOps F} (w : Listing o) : Prop :=
  pyIn "vmstat" w.run.dir = false ∧ configOf (w.run.path .perf) ≠ "" ∧
  w.files.idxOf .vmstat < w.files.idxOf .perf

section Contents

variable {o : FloatOps F} (r : Run o)

end Contents

end Trident.Scripts
