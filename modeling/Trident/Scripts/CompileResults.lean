import Mathlib.Data.Rat.Floor
import Trident.Lib.PyText

/-! # Collecting the logs of all runs

`compile_results.py` up to the averages. An exception of the script is `none`.
The float arithmetic is a parameter: nothing below depends on its rounding.
-/

namespace Trident.Scripts

open PyText

/-- `float`, its operations and `round(x, 2)`; division raises for a zero divisor only. -/
structure FloatOps (F : Type) where
  parse : List Char → Option F
  ofInt : Int → F
  add : F → F → F
  mul : F → F → F
  div : F → F → Option F
  round2 : F → F
  trunc : F → Int
  div_neg_one : ∀ a, (div a (ofInt (-1))).isSome

structure Entry (F : Type) where
  bench : String
  config : String
  time : Int
  pwc : F
  copy : Int
  deriving DecidableEq

structure Globals (F : Type) where
  currBench : String
  currConfig : String
  benchmarks : List String
  summary : List (Entry F)

/-- The list as Python reads it: the missing comma after `'1GBHUGE-1GBHUGE'` joins it with
the entry of the next line. -/
def configs : List String :=
  ["4KB", "2MBTHP", "2MBHUGE", "1GBHUGE", "TRIDENT", "TRIDENT-1G",
    "TRIDENT-NC", "HAWKEYE", "2MBTHP-F", "TRIDENT-F", "TRIDENT-1G-F",
    "TRIDENT-NC-F", "HAWKEYE-F", "4KB-4KB", "2MBTHP-2MBTHP", "1GBHUGE-1GBHUGE" ++
    "TRIDENT-TRIDENT", "HAWKEYE-HAWKEYE", "2MBTHP-2MBTHP-F", "TRIDENT-TRIDENT-F",
    "TRIDENTPV-TRIDENTPV-F"]

def prettyConfigs : List String :=
  ["4KB", "2MB-THP", "2MB-HUGE", "1GB-HUGE", "Trident", "Trident-1G",
    "Trident-NC", "HawkEye", "2MB-THP", "Trident", "Trident-1G", "Trident-NC",
    "HawkEye", "4KB+4KB", "2MB+2MB", "1GB+1GB", "Trident+Trident", "HawkEye+HawkEye",
    "2MB+2MB", "Trident+Trident", "TridentPV+TridentPV"]

def workloads : List String :=
  ["xsbench", "gups", "svm", "redis", "btree", "graph500", "memcached",
    "canneal", "pr", "cc", "bc", "cg"]

variable {F : Type}

def benchOf (log : String) : Option String := workloads.find? fun bench => pyIn bench log

def configOf (log : String) : String :=
  (configs.find? fun tmp => pyIn ("--" ++ tmp ++ "--") log).getD ""

def updateWorkloadConfig (log : String) (g : Globals F) : Globals F :=
  let bench := (benchOf log).getD g.currBench
  { g with currBench := bench, currConfig := configOf log, benchmarks := g.benchmarks ++ [bench] }

def recordOutput (time : Int) (pwc : F) (copy : Int) (g : Globals F) : Globals F :=
  if time = -1 then g
  else { g with summary := g.summary ++ [⟨g.currBench, g.currConfig, time, pwc, copy⟩] }

structure Counters (F : Type) where
  cycles : F
  loads : F
  stores : F
  deriving DecidableEq

/-- One counter of the loop: `if event in line: value = float(line.split(',')[0])`. -/
def scanCounter (o : FloatOps F) (event : String) (value : F) (line : String) : Option F :=
  if pyIn event line then o.parse (beforeComma line.toList) else some value

def scanCounters (o : FloatOps F) (c : Counters F) (line : String) : Option (Counters F) := do
  let cycles ← scanCounter o ",cycles" c.cycles line
  let loads ← scanCounter o ",dtlb_load_misses.walk_active" c.loads line
  let stores ← scanCounter o ",dtlb_store_misses.walk_active" c.stores line
  return { cycles, loads, stores }

def noCounters (o : FloatOps F) : Counters F :=
  { cycles := o.ofInt (-1), loads := o.ofInt (-1), stores := o.ofInt (-1) }

/-- `round((((loads + stores) * 100)/cycles), 2)` -/
def walkPercentage (o : FloatOps F) (c : Counters F) : Option F :=
  (o.div (o.mul (o.add c.loads c.stores) (o.ofInt 100)) c.cycles).map o.round2

/-- The variables that live across the files of one directory. -/
structure Carried (F : Type) where
  time : Int
  pwc : F
  copy : Int

structure LogFile where
  name : String
  lines : List String

/-- A directory as `os.walk` reports it. -/
structure WalkedDir where
  root : String
  files : List LogFile

def pretty (name : String) : Option String :=
  match configs.findIdx? (· == name) with
  | some index => prettyConfigs[index]?
  | none => some name

/-- The columns of one row of `all.csv` or `avg.csv`, before they are formatted. -/
structure Row (F : Type) where
  bench : String
  config : String
  time : Int
  pwc : F
  deriving DecidableEq

end Trident.Scripts
