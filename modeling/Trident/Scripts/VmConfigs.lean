import Trident.Lib.Cursor
import Trident.Lib.PyText

/-! # The domain files of `gen_vmconfigs.py`

`rewrite_config` walks over the children of a libvirt domain while its helpers
remove and insert children of the same list. An element keeps its identity by its
place, so `list(main).index(child)` is the number of children before it.
-/

namespace Trident.Scripts.VmConfigs

open PyText Cursor

/-! ## Elements -/

structure Element where
  tag : String
  attrib : List (String × String)
  text : Option String
  tail : Option String
  children : List Element

namespace Element

/-- `ET.Element(tag)` -/
def new (tag : String) : Element := ⟨tag, [], none, none, []⟩

def setText (e : Element) (text : String) : Element := { e with text := some text }

@[simp] theorem new_tag (tag : String) : (new tag).tag = tag := rfl
@[simp] theorem setText_tag (e : Element) (text : String) : (e.setText text).tag = e.tag := rfl
@[simp] theorem setText_setText (e : Element) (text : String) :
    (e.setText text).setText text = e.setText text := rfl

end Element

/-- `remove_tag` runs over a copy of the list it removes from. -/
def removeTag (main : List Element) (tag : String) : List Element :=
  main.filter fun e => e.tag ≠ tag

/-- `main.insert(pos, e)` -/
def pyInsert (main : List Element) (pos : Nat) (e : Element) : List Element :=
  main.take pos ++ e :: main.drop pos

inductive Config where
  | base4kb
  | huge2mb
  | huge1gb
  | hawkeye
  deriving DecidableEq, Repr

/-- What the machine answers: `get_vcpu_count`, `get_memory_size`, and the line of
`numactl -H` that lists the CPUs of node 0. -/
structure Host where
  vcpuCount : Nat
  memorySize : Nat
  node0Cpus : String

/-! ## The rewrite of `os` -/

def kernelTrident : String := "/boot/vmlinuz-4.17.3-Trident+"
def initrdTrident : String := "/boot/initrd.img-4.17.3-Trident+"
def cmdlineTrident : String := "console=ttyS0 root=/dev/sda1 "
def cmdline2mbhugePostfix : String := "default_hugepagesz=2M"
def cmdline1gbhugePostfix : String := "default_hugepagesz=1G"
def kernelHawkeye : String := "/boot/vmlinuz-4.17.3-HawkEye+"
def initrdHawkeye : String := "/boot/initrd.img-4.3.0-HawkEye+"

def cmdlinePostfix : Config → String
  | .huge2mb => cmdline2mbhugePostfix
  | .huge1gb => cmdline1gbhugePostfix
  | .base4kb | .hawkeye => ""

/-- The tags `rewrite_os` looks for, in the order it adds them, with their texts. -/
def bootFiles (config : Config) : List (String × String) :=
  [("kernel", if config = .hawkeye then kernelHawkeye else kernelTrident),
    ("initrd", if config = .hawkeye then initrdHawkeye else initrdTrident),
    ("cmdline", cmdlineTrident ++ cmdlinePostfix config)]

def bootText (config : Config) (child : Element) : Element :=
  match (bootFiles config).lookup child.tag with
  | some text => child.setText text
  | none => child

def rewriteOs (config : Config) (tag : Element) : Element :=
  { tag with
    children := tag.children.map (bootText config) ++
      ((bootFiles config).filter fun file => tag.children.all fun child => child.tag ≠ file.1).map
        fun file => (Element.new file.1).setText file.2 }

/-! ## The three helpers that change the list -/

/-- `none` stands for the `IndexError` of `cpus[i]`. -/
def vcpupin (host : Host) (i : Nat) : Option Element :=
  ((pySplit host.node0Cpus.toList)[i]?).map fun cpu =>
    { Element.new "vcpupin" with attrib := [("cpuset", String.ofList cpu), ("vcpu", toString i)] }

def vcpupins (host : Host) (nrCpus : Int) : Option (List Element) :=
  (List.range nrCpus.toNat).mapM (vcpupin host)

def cputune (pins : List Element) : Element := { Element.new "cputune" with children := pins }

/-- There is no list where an exception ends the script before the file is written. -/
def addVcpuNumaTune (host : Host) (front : List Element) (child : Element) (rest : List Element) :
    Option (List Element) := do
  let nrCpus ← child.text.bind fun text => pyInt text.toList
  let pos := front.length
  let main := removeTag (front ++ child :: rest) "cputune"
  let pins ← vcpupins host nrCpus
  let main := pyInsert main (pos + 1) (cputune pins)
  return removeTag main "numatune"

def pageSize : Config → Option String
  | .base4kb | .hawkeye => none
  | .huge2mb => some "2048"
  | .huge1gb => some "1048576"

def memoryBacking (size : String) : Element :=
  { Element.new "memoryBacking" with
    children := [{ Element.new "hugepages" with
      children := [{ Element.new "page" with attrib := [("size", size), ("unit", "KiB")] }] }] }

def addMemoryBacking (config : Config) (front : List Element) (child : Element)
    (rest : List Element) : List Element :=
  let main := removeTag (front ++ child :: rest) "memoryBacking"
  match pageSize config with
  | none => main
  | some size =>
    let pos := (removeTag front "memoryBacking").length
    pyInsert main (pos + 1) (memoryBacking size)

def cpuMode : Element :=
  { Element.new "cpu" with attrib := [("mode", "host-passthrough"), ("check", "partial")] }

/-- The visited element is among those removed. -/
def addCpuMode (front : List Element) (child : Element) (rest : List Element) : List Element :=
  let pos := front.length
  let main := removeTag (front ++ child :: rest) "cpu"
  pyInsert main (pos + 1) cpuMode

/-! ## The loop -/

def visit (host : Host) (config : Config) (front : List Element) (child : Element)
    (rest : List Element) : Option (List Element) :=
  if child.tag = "os" then some (front ++ rewriteOs config child :: rest)
  else if child.tag = "vcpu" then
    addVcpuNumaTune host front (child.setText (toString host.vcpuCount)) rest
  else if child.tag = "memory" then
    some (front ++ child.setText (toString host.memorySize) :: rest)
  else if child.tag = "currentMemory" then
    some (addMemoryBacking config front (child.setText (toString host.memorySize)) rest)
  else if child.tag = "cpu" then some (addCpuMode front child rest)
  else some (front ++ child :: rest)

/-- The children of the root after the loop. A visit of `vcpu` or of
`currentMemory` can add an element that is visited in its turn. -/
def rewriteConfig (host : Host) (config : Config) (main : List Element) : Option (List Element) :=
  loop (visit host config) (2 * main.length) [] main

/-! ## What a visit leaves -/

def tags (l : List Element) : List String := l.map Element.tag

@[simp] theorem tags_nil : tags [] = [] := rfl

@[simp] theorem tags_cons (e : Element) (l : List Element) : tags (e :: l) = e.tag :: tags l := rfl

@[simp] theorem tags_append (l l' : List Element) : tags (l ++ l') = tags l ++ tags l' :=
  List.map_append

theorem mem_tags {tag : String} {l : List Element} : tag ∈ tags l ↔ ∃ e ∈ l, e.tag = tag :=
  List.mem_map

section RemoveTag

variable {tag : String} {e : Element} {l l' : List Element}

theorem removeTag_append : removeTag (l ++ l') tag = removeTag l tag ++ removeTag l' tag :=
  List.filter_append ..

theorem removeTag_cons_self (h : e.tag = tag) : removeTag (e :: l) tag = removeTag l tag :=
  List.filter_cons_of_neg (by simp [h])

theorem removeTag_cons_of_ne (h : e.tag ≠ tag) : removeTag (e :: l) tag = e :: removeTag l tag :=
  List.filter_cons_of_pos (by simp [h])

theorem mem_removeTag : e ∈ removeTag l tag ↔ e ∈ l ∧ e.tag ≠ tag := by
  simp [removeTag]

theorem removeTag_sublist (l : List Element) (tag : String) : (removeTag l tag).Sublist l :=
  List.filter_sublist

theorem length_removeTag (tag : String) (l : List Element) :
    (removeTag l tag).length + (tags l).count tag = l.length := by
  induction l with
  | nil => rfl
  | cons e l ih =>
    by_cases h : e.tag = tag
    · rw [removeTag_cons_self h, tags_cons, h, List.count_cons_self, List.length_cons]
      omega
    · rw [removeTag_cons_of_ne h, tags_cons, List.count_cons_of_ne h, List.length_cons, List.length_cons]
      omega

theorem count_removeTag {other : String} (h : other ≠ tag) :
    (tags (removeTag l tag)).count other = (tags l).count other := by
  induction l with
  | nil => rfl
  | cons e l ih =>
    by_cases hTag : e.tag = tag
    · rw [removeTag_cons_self hTag, ih, tags_cons, List.count_cons_of_ne (by rw [hTag]; exact h.symm)]
    · rw [removeTag_cons_of_ne hTag, tags_cons, tags_cons, List.count_cons, List.count_cons, ih]

end RemoveTag

theorem pyInsert_of_length_le {main : List Element} {pos : Nat} (h : main.length ≤ pos) (e : Element) :
    pyInsert main pos e = main ++ [e] := by
  rw [pyInsert, List.take_of_length_le h, List.drop_eq_nil_of_le h]

/-- An insertion `k` places behind the element that `front` ends before. -/
theorem pyInsert_behind (front : List Element) (child : Element) (rest : List Element) (k : Nat)
    (e : Element) :
    pyInsert (front ++ child :: rest) (front.length + k + 1) e =
      front ++ child :: (rest.take k ++ e :: rest.drop k) := by
  rw [pyInsert, take_behind, drop_behind, List.append_assoc, List.cons_append]

section Visit

variable {host : Host} {config : Config} {front : List Element} {child : Element}
  {rest main : List Element}

/-- The visited element after its visit. -/
def written (host : Host) (config : Config) (e : Element) : Element :=
  if e.tag = "os" then rewriteOs config e
  else if e.tag = "vcpu" then e.setText (toString host.vcpuCount)
  else if e.tag = "memory" ∨ e.tag = "currentMemory" then e.setText (toString host.memorySize)
  else e

@[simp] theorem written_tag (host : Host) (config : Config) (e : Element) :
    (written host config e).tag = e.tag := by
  unfold written
  split_ifs <;> rfl

theorem bootText_tag (child : Element) : (bootText config child).tag = child.tag := by
  unfold bootText
  split <;> rfl

theorem bootText_bootText (child : Element) :
    bootText config (bootText config child) = bootText config child := by
  cases hText : (bootFiles config).lookup child.tag <;> simp [bootText, hText]

theorem bootText_new {file : String × String} (h : file ∈ bootFiles config) :
    bootText config ((Element.new file.1).setText file.2) = (Element.new file.1).setText file.2 := by
  have hText : (bootFiles config).lookup file.1 = some file.2 := by
    simp only [bootFiles, List.mem_cons, List.not_mem_nil, or_false] at h
    rcases h with rfl | rfl | rfl <;> rfl
  simp [bootText, hText]

theorem rewriteOs_rewriteOs (e : Element) :
    rewriteOs config (rewriteOs config e) = rewriteOs config e := by
  have hTexts : (rewriteOs config e).children.map (bootText config) = (rewriteOs config e).children := by
    rw [rewriteOs, List.map_append, List.map_map, List.map_map]
    congr 1
    · exact List.map_congr_left fun child _ => bootText_bootText child
    · exact List.map_congr_left fun file hFile => bootText_new (List.mem_of_mem_filter hFile)
  -- each file has a child of its tag, found or added
  have hNone : (bootFiles config).filter (fun file =>
      (rewriteOs config e).children.all fun child => child.tag ≠ file.1) = [] := by
    refine List.filter_eq_nil_iff.mpr fun file hFile hAll => ?_
    simp only [List.all_eq_true, decide_eq_true_eq] at hAll
    by_cases hFound : ∃ child ∈ e.children, child.tag = file.1
    · obtain ⟨child, hChild, hTag⟩ := hFound
      exact hAll (bootText config child) (List.mem_append_left _ (List.mem_map_of_mem hChild))
        ((bootText_tag child).trans hTag)
    · refine hAll ((Element.new file.1).setText file.2) (List.mem_append_right _ ?_) rfl
      refine List.mem_map_of_mem (List.mem_filter.mpr ⟨hFile, ?_⟩)
      simpa using hFound
  conv_lhs => rw [rewriteOs, hTexts, hNone, List.map_nil, List.append_nil]
  rfl

theorem rewriteOs_children_ne_nil (e : Element) : (rewriteOs config e).children ≠ [] := by
  intro hNil
  obtain ⟨hOld, hAdded⟩ := List.append_eq_nil_iff.mp hNil
  rw [List.map_eq_nil_iff.mp hOld] at hAdded
  cases hAdded

@[simp] theorem written_written (host : Host) (config : Config) (e : Element) :
    written host config (written host config e) = written host config e := by
  conv_lhs => rw [written]
  simp only [written_tag]
  unfold written
  split_ifs with hOs hVcpu hMemory
  · exact rewriteOs_rewriteOs e
  · rfl
  · rfl
  · rfl

def backing (config : Config) : List Element :=
  ((pageSize config).map memoryBacking).toList

theorem visit_plain (hChild : child.tag ∉ ["vcpu", "currentMemory", "cpu"]) :
    visit host config front child rest = some (front ++ written host config child :: rest) := by
  simp only [List.mem_cons, List.not_mem_nil, or_false, not_or] at hChild
  simp only [visit, written, hChild, if_false, or_false]
  split_ifs <;> rfl

theorem visit_currentMemory (hChild : child.tag = "currentMemory") :
    visit host config front child rest =
      some (removeTag front "memoryBacking" ++ written host config child ::
        (backing config ++ removeTag rest "memoryBacking")) := by
  have hVisit : visit host config front child rest =
      some (addMemoryBacking config front (written host config child) rest) := by
    simp [visit, written, hChild]
  have hKept : (written host config child).tag ≠ "memoryBacking" := by
    rw [written_tag, hChild]
    decide
  rw [hVisit, addMemoryBacking, removeTag_append, removeTag_cons_of_ne hKept, backing]
  cases pageSize config with
  | none => rfl
  | some size => exact congrArg some (pyInsert_behind _ _ _ 0 _)

theorem pyInt_toString (n : Nat) : pyInt (toString n).toList = some (n : Int) := by
  have h := pyInt_repr n [] rfl
  rwa [List.append_nil] at h

theorem visit_vcpu (hChild : child.tag = "vcpu") :
    visit host config front child rest = (vcpupins host host.vcpuCount).map fun pins =>
      removeTag (removeTag front "cputune") "numatune" ++ written host config child ::
        (removeTag ((removeTag rest "cputune").take ((tags front).count "cputune")) "numatune" ++
          cputune pins ::
            removeTag ((removeTag rest "cputune").drop ((tags front).count "cputune")) "numatune") := by
  have hVisit : visit host config front child rest =
      addVcpuNumaTune host front (written host config child) rest := by
    simp [visit, written, hChild]
  have hText : (written host config child).text.bind (fun text => pyInt text.toList) =
      some (host.vcpuCount : Int) := by
    rw [written, if_neg (by rw [hChild]; decide), if_pos hChild]
    exact pyInt_toString host.vcpuCount
  have hTune : (written host config child).tag ≠ "cputune" := by
    rw [written_tag, hChild]
    decide
  have hNuma : (written host config child).tag ≠ "numatune" := by
    rw [written_tag, hChild]
    decide
  have hNew : ∀ pins, (cputune pins).tag ≠ "numatune" := fun _ => by
    rw [cputune, Element.new_tag]
    decide
  rw [hVisit, addVcpuNumaTune, hText]
  simp only [Option.bind_eq_bind, Option.bind_some]
  rw [removeTag_append, removeTag_cons_of_ne hTune, ← length_removeTag "cputune" front]
  cases vcpupins host host.vcpuCount with
  | none => rfl
  | some pins =>
    simp only [Option.bind_some, Option.map_some, pyInsert_behind]
    rw [removeTag_append, removeTag_cons_of_ne hNuma, removeTag_append, removeTag_cons_of_ne (hNew pins)]
    rfl

theorem visit_cpu (hChild : child.tag = "cpu") :
    visit host config front child rest =
      some (pyInsert (removeTag front "cpu" ++ removeTag rest "cpu") (front.length + 1) cpuMode) := by
  have hVisit : visit host config front child rest = some (addCpuMode front child rest) := by
    simp [visit, hChild]
  rw [hVisit, addCpuMode, removeTag_append, removeTag_cons_self hChild]

end Visit

/-! ## The loop ends -/

/-- The elements still to come, with those counted twice that can add one. -/
def potential (rest : List Element) : Nat :=
  rest.length + (tags rest).countP fun tag => tag = "vcpu" ∨ tag = "currentMemory"

theorem potential_append (l l' : List Element) :
    potential (l ++ l') = potential l + potential l' := by
  rw [potential, tags_append, List.length_append, List.countP_append, potential, potential]
  omega

theorem potential_cons (e : Element) (l : List Element) :
    potential (e :: l) = potential [e] + potential l :=
  potential_append [e] l

theorem potential_le {l l' : List Element} (h : l.Sublist l') : potential l ≤ potential l' :=
  Nat.add_le_add h.length_le ((h.map Element.tag).countP_le)

theorem potential_pos (e : Element) : 0 < potential [e] := Nat.add_pos_left Nat.one_pos _

theorem potential_take_drop (l : List Element) (k : Nat) :
    potential (l.take k) + potential (l.drop k) = potential l := by
  rw [← potential_append, List.take_append_drop]

section Ends

variable {host : Host} {config : Config} {front : List Element} {child : Element}
  {rest : List Element}

theorem exists_vcpupins_iff :
    (∃ pins, vcpupins host host.vcpuCount = some pins) ↔
      host.vcpuCount ≤ (pySplit host.node0Cpus.toList).length := by
  rw [vcpupins, Int.toNat_natCast, exists_congr fun pins => mapM_eq_some_iff, exists_forall₂_iff]
  simp only [List.mem_range]
  constructor
  · intro h
    by_contra hLess
    obtain ⟨_, hPin⟩ := h _ (not_le.mp hLess)
    rw [vcpupin, List.getElem?_eq_none le_rfl] at hPin
    cases hPin
  · intro hLe i hi
    exact ⟨_, by rw [vcpupin, List.getElem?_eq_getElem (hi.trans_le hLe), Option.map_some]⟩

theorem length_removeTag_tune (front : List Element) :
    (removeTag (removeTag front "cputune") "numatune").length +
      ((tags front).count "cputune" + (tags front).count "numatune") = front.length := by
  have hNuma := length_removeTag "numatune" (removeTag front "cputune")
  rw [count_removeTag (by decide)] at hNuma
  rw [← length_removeTag "cputune" front, ← hNuma]
  omega

theorem potential_vcpu (rest : List Element) (c : Nat) (pins : List Element) :
    potential (removeTag ((removeTag rest "cputune").take c) "numatune" ++
      cputune pins :: removeTag ((removeTag rest "cputune").drop c) "numatune") ≤ potential rest + 1 := by
  have hTune : potential [cputune pins] = 1 := by simp [potential, cputune]
  have hBefore := potential_le (removeTag_sublist ((removeTag rest "cputune").take c) "numatune")
  have hBehind := potential_le (removeTag_sublist ((removeTag rest "cputune").drop c) "numatune")
  have hParts := potential_take_drop (removeTag rest "cputune") c
  have hRest := potential_le (removeTag_sublist rest "cputune")
  rw [potential_append, potential_cons]
  omega

theorem potential_currentMemory (config : Config) (rest : List Element) :
    potential (backing config ++ removeTag rest "memoryBacking") ≤ potential rest + 1 := by
  have hBacking : potential (backing config) ≤ 1 := by
    cases config <;> decide
  have hRest := potential_le (removeTag_sublist rest "memoryBacking")
  rw [potential_append]
  omega

theorem potential_cpu (front rest : List Element) :
    potential ((pyInsert (removeTag front "cpu" ++ removeTag rest "cpu") (front.length + 1) cpuMode).drop
      (front.length + 1)) ≤ potential rest := by
  have hNew : potential [cpuMode] = 1 := by decide
  have hFront : (removeTag front "cpu").length ≤ front.length := (removeTag_sublist _ _).length_le
  have hRest : potential (removeTag rest "cpu") ≤ potential rest := potential_le (removeTag_sublist _ _)
  obtain ⟨k, hk⟩ := Nat.exists_eq_add_of_le hFront
  rw [hk]
  cases hCpus : removeTag rest "cpu" with
  | nil =>
    rw [List.append_nil, pyInsert_of_length_le (by omega), List.drop_eq_nil_of_le (by simp)]
    exact Nat.zero_le _
  | cons e l =>
    -- the new element takes the place of the first that it is put behind
    have hPart := potential_le ((l.take k ++ cpuMode :: l.drop k).drop_sublist k)
    have hParts := potential_take_drop l k
    have hOne := potential_pos e
    rw [potential_append, potential_cons cpuMode] at hPart
    rw [hCpus, potential_cons] at hRest
    rw [pyInsert_behind, drop_behind]
    omega

theorem visit_lowers (hPins : host.vcpuCount ≤ (pySplit host.node0Cpus.toList).length) :
    ∃ main, visit host config front child rest = some main ∧
      potential (main.drop (front.length + 1)) < potential (child :: rest) := by
  rw [potential_cons child rest]
  by_cases hPlain : child.tag ∉ ["vcpu", "currentMemory", "cpu"]
  · refine ⟨_, visit_plain hPlain, ?_⟩
    have hOne := potential_pos child
    rw [drop_next]
    omega
  · simp only [List.mem_cons, List.not_mem_nil, or_false, not_not] at hPlain
    rcases hPlain with hVcpu | hMemory | hCpu
    · obtain ⟨pins, hSome⟩ := exists_vcpupins_iff.mpr hPins
      have hTwo : potential [child] = 2 := by simp [potential, hVcpu]
      have hNext := potential_vcpu rest ((tags front).count "cputune") pins
      refine ⟨_, by rw [visit_vcpu hVcpu, hSome, Option.map_some], ?_⟩
      rw [← length_removeTag_tune front, drop_behind]
      exact (potential_le (List.drop_sublist _ _)).trans_lt (by omega)
    · have hTwo : potential [child] = 2 := by simp [potential, hMemory]
      have hNext := potential_currentMemory config rest
      refine ⟨_, visit_currentMemory hMemory, ?_⟩
      rw [← length_removeTag "memoryBacking" front, drop_behind]
      exact (potential_le (List.drop_sublist _ _)).trans_lt (by omega)
    · have hOne := potential_pos child
      refine ⟨_, visit_cpu hCpu, (potential_cpu front rest).trans_lt ?_⟩
      omega

/-- The loop comes to its end on every list of children, unless the CPUs of node 0
run out. -/
theorem exists_rewriteConfig (hPins : host.vcpuCount ≤ (pySplit host.node0Cpus.toList).length)
    (main : List Element) : ∃ result, rewriteConfig host config main = some result := by
  have hTurns : potential main ≤ 2 * main.length := by
    have hCount : (tags main).countP (fun tag => tag = "vcpu" ∨ tag = "currentMemory") ≤ main.length :=
      List.countP_le_length.trans_eq (List.length_map _)
    rw [potential]
    omega
  exact exists_loop potential (fun _ _ _ => visit_lowers hPins) hTurns

end Ends

end Trident.Scripts.VmConfigs
