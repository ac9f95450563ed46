import Mathlib.Logic.Function.Basic
import Trident.Lib.Glob

/-! # The page-size settings of `common.sh`

A run of an experiment writes a set of sysctl files and then starts the
benchmark. The state is the text of those files together with the shell
variables that survive from one run to the next; every `echo v | sudo tee f`
is one update of it.
-/

namespace Trident.Scripts

open Glob

/-- Files below `/sys/kernel/mm/transparent_hugepage`, then `/proc/sys/vm`,
then the two hugetlb pools of node 0. -/
inductive SysctlFile where
  | enabled
  | enabled1gb
  | enabledPmd
  | enabledPud
  | defrag
  | khugepagedCollapsePmd
  | khugepagedCollapsePud
  | pagesToScan
  | collapseViaHypercall
  | maxCpu
  | compactionSmart
  | smartCompactionRetries
  | nrHugepagesMempolicy
  | nrHugepages2048kB
  | nrHugepages1048576kB
  deriving DecidableEq, Repr

structure System where
  sysctl : SysctlFile → String
  hugetlb2mbPages : String
  hugetlb1gbPages : String

/-- `NR_HUGETLB_PAGES` is assigned nowhere, so its expansion is empty. -/
def nrHugetlbPages : String := ""

def tee (f : SysctlFile) (v : String) (s : System) : System :=
  { s with sysctl := Function.update s.sysctl f v }

@[simp] theorem tee_sysctl (f : SysctlFile) (v : String) (s : System) (g : SysctlFile) :
    (tee f v s).sysctl g = if g = f then v else s.sysctl g := by
  simp [tee, Function.update_apply]

@[simp] theorem tee_hugetlb2mbPages (f : SysctlFile) (v : String) (s : System) :
    (tee f v s).hugetlb2mbPages = s.hugetlb2mbPages := rfl

@[simp] theorem tee_hugetlb1gbPages (f : SysctlFile) (v : String) (s : System) :
    (tee f v s).hugetlb1gbPages = s.hugetlb1gbPages := rfl

def setupTridentConfigs (s : System) : System :=
  s |> tee .enabled "always"
    |> tee .defrag "1"
    |> tee .enabledPmd "1"
    |> tee .enabledPud "1"
    |> tee .khugepagedCollapsePmd "1"
    |> tee .khugepagedCollapsePud "1"
    |> tee .compactionSmart "1"
    |> tee .smartCompactionRetries "5"
    |> tee .pagesToScan "2097152"
    |> tee .collapseViaHypercall "0"
    |> tee .maxCpu "0"

def setupTridentNosmartConfigs (s : System) : System :=
  setupTridentConfigs s
    |> tee .compactionSmart "0"
    |> tee .smartCompactionRetries "1"

def setupTrident1gbonlyConfigs (s : System) : System :=
  setupTridentConfigs s
    |> tee .enabledPmd "0"
    |> tee .khugepagedCollapsePmd "0"

def setupTridentpvConfigs (s : System) : System :=
  setupTridentConfigs s
    |> tee .collapseViaHypercall "1"
    |> tee .maxCpu "10"

def setup2mbthpConfigs (s : System) : System :=
  s |> tee .enabled "always"
    |> tee .enabled1gb "never"
    |> tee .defrag "1"
    |> tee .enabledPmd "1"
    |> tee .enabledPud "0"
    |> tee .khugepagedCollapsePmd "1"
    |> tee .khugepagedCollapsePud "0"
    |> tee .compactionSmart "0"
    |> tee .pagesToScan "4096"

def setup4kbConfigs (s : System) : System :=
  s |> tee .enabled "never"
    |> tee .enabled1gb "never"
    |> tee .defrag "0"
    |> tee .enabledPmd "0"
    |> tee .enabledPud "0"
    |> tee .khugepagedCollapsePmd "0"
    |> tee .khugepagedCollapsePud "0"
    |> tee .compactionSmart "0"
    |> tee .pagesToScan "4096"

inductive Setup where
  | trident
  | tridentNosmart
  | trident1gbonly
  | tridentpv
  | thp2mb
  | base4kb
  deriving DecidableEq, Repr

def Setup.run : Setup → System → System
  | .trident => setupTridentConfigs
  | .tridentNosmart => setupTridentNosmartConfigs
  | .trident1gbonly => setupTrident1gbonlyConfigs
  | .tridentpv => setupTridentpvConfigs
  | .thp2mb => setup2mbthpConfigs
  | .base4kb => setup4kbConfigs

/-- The chain of tests in `prepare_system_configs`: all arms are globs but
`TRIDENT`, which is compared as a whole. `$CONFIG` is not quoted there, but a
name is a word of `for CONFIG in $CONFIGS` and has no blanks to split at. -/
def setupFor (config : String) : Setup :=
  if globMatch "*2MB*" config then .thp2mb
  else if globMatch "*HAWKEYE*" config then .thp2mb
  else if globMatch "*1GBHUGE*" config then .thp2mb
  else if config = "TRIDENT" then .trident
  else if globMatch "*TRIDENT-NC*" config then .tridentNosmart
  else if globMatch "*TRIDENT-1G*" config then .trident1gbonly
  else if globMatch "*TRIDENT*PV*" config then .tridentpv
  else .base4kb

def adjustHugetlbPages (benchmark : String) (s : System) : System :=
  if benchmark = "" then s
  else if benchmark = "graph500" then
    { s with hugetlb2mbPages := "40000", hugetlb1gbPages := "80" }
  else if benchmark = "memcached" then
    { s with hugetlb2mbPages := "15000", hugetlb1gbPages := "30" }
  else s

/-- The hugetlb pool is filled before the page policy is chosen. -/
def reserveHugetlbPool (config : String) (s : System) : System :=
  if globMatch "*2MBHUGE*" config then tee .nrHugepages2048kB s.hugetlb2mbPages s
  else if globMatch "*1GBHUGE*" config then tee .nrHugepages1048576kB s.hugetlb1gbPages s
  else s

def prepareSystemConfigs (benchmark config : String) (s : System) : System :=
  adjustHugetlbPages benchmark s
    |> reserveHugetlbPool config
    |> tee .nrHugepagesMempolicy nrHugetlbPages
    |> (setupFor config).run

def cleanupSystemConfigs (s : System) : System :=
  s |> tee .nrHugepages2048kB "0"
    |> tee .nrHugepages1048576kB "0"
    |> tee .maxCpu "0"

end Trident.Scripts
