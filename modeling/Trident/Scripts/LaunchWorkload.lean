import Mathlib.Logic.Function.Basic
import Trident.Lib.Transition

/-! # One benchmark after the other

`launch_workload` and the process it starts meet only in the two files
`alloctest-bench.ready` and `alloctest-bench.done`, whose names every run uses again.
-/

namespace Trident.Scripts

open Relation Transition

/-- The two files under `/tmp`. -/
inductive Signal where
  | ready
  | done
  deriving DecidableEq

inductive Action where
  | touch (f : Signal)
  | work
  deriving DecidableEq

/-- A benchmark as it is linked with the common main. -/
structure Workload where
  disableSignalInMain : Bool
  realMain : List Action
  returns : Bool

/-- `main`: a `real_main` that exits by itself never comes back to signal once more. -/
def Workload.main (w : Workload) : List Action :=
  (if w.disableSignalInMain then [] else [.touch .ready]) ++ w.realMain ++
    (if w.returns then [.touch .done] else [])

/-- `real_main` of `btree1.c` -/
def btreeWorkload : Workload :=
  ⟨true, [.work, .touch .ready, .work, .touch .done], true⟩

/-- `run_bfs` of `graph500.c` ends in `exit(0)`. -/
def graph500Workload : Workload :=
  ⟨true, [.work, .touch .ready, .work, .touch .done], false⟩

inductive Process where
  | absent
  | running (rest : List Action)
  | exited

/-- The lines of `launch_workload` that touch the files, the process or `SECONDS`. -/
inductive Line where
  | rmReady
  | rmDone
  | launch
  | resetInit
  | waitReady
  | initDuration
  | resetExec
  | waitDone
  | duration
  | waitBenchmark
  deriving DecidableEq

/-- What happens, in the order in which it happens. The files are observed together with the
processes that have opened them since they were removed. -/
inductive Event where
  | touched (f : Signal) (run : Nat)
  | observed (f : Signal) (run : Nat) (writers : List (Option Nat))
  | tick
  | started (run : Nat)
  | finished (run duration : Nat)
  deriving DecidableEq

/-- A process has the number of the call that launches it. A file exists when some process has
opened it since it was last removed; `none` stands for one before the first call. -/
structure State where
  line : Line
  run : Nat
  benchmarkPid : Nat
  seconds : Nat
  initDuration : Nat
  duration : Nat
  file : Signal → List (Option Nat)
  process : Nat → Process
  history : List Event

namespace State

def rm (f : Signal) (s : State) : State :=
  { s with file := Function.update s.file f [] }

/-- `fopen(..., "w")` -/
def touch (n : Nat) (f : Signal) (s : State) : State :=
  { s with
    file := Function.update s.file f (some n :: s.file f)
    history := s.history ++ [.touched f n] }

def setProcess (n : Nat) (p : Process) (s : State) : State :=
  { s with process := Function.update s.process n p }

def record (e : Event) (s : State) : State :=
  { s with history := s.history ++ [e] }

def goto (line : Line) (s : State) : State :=
  { s with line := line }

end State

/-- `while [ ! -f file ]; do sleep 0.1; done` -/
def waitFor (f : Signal) (next : Line) (s : State) : State :=
  if s.file f = [] then s else (s.record (.observed f s.run (s.file f))).goto next

/-- The script itself; a line that has to wait leaves the state as it is. The last line goes on
with the next call. -/
def scriptStep (w : Nat → Workload) (s : State) : State :=
  match s.line with
  | .rmReady => (s.rm .ready).goto .rmDone
  | .rmDone => (s.rm .done).goto .launch
  | .launch =>
    ({ s.setProcess s.run (.running (w s.run).main) with benchmarkPid := s.run }).goto .resetInit
  | .resetInit => { s with seconds := 0 }.goto .waitReady
  | .waitReady => waitFor .ready .initDuration s
  | .initDuration => { s with initDuration := s.seconds }.goto .resetExec
  | .resetExec => ({ s with seconds := 0 }.record (.started s.run)).goto .waitDone
  | .waitDone => waitFor .done .duration s
  | .duration =>
    ({ s with duration := s.seconds }.record (.finished s.run s.seconds)).goto .waitBenchmark
  | .waitBenchmark =>
    match s.process s.benchmarkPid with
    | .running _ => s
    | _ => { s with run := s.run + 1 }.goto .rmReady

/-- What a process can do next: its program, the handler of `SIGUSR1`, or an early end as after
a failed `fopen`. -/
inductive Move where
  | next
  | signalhandler
  | quit

def doAction (n : Nat) (a : Action) (s : State) : State :=
  match a with
  | .touch f => s.touch n f
  | .work => s

def processMove (n : Nat) (rest : List Action) (s : State) : Move → State
  | .next =>
    match rest with
    | [] => s.setProcess n .exited
    | a :: rest => (doAction n a s).setProcess n (.running rest)
  | .signalhandler => (s.touch n .done).setProcess n (.running [])
  | .quit => s.setProcess n .exited

inductive Choice where
  | script
  | process (n : Nat) (move : Move)
  | second

/-- One step of the script, of a live process or of the clock. -/
def stepBy (w : Nat → Workload) (s : State) : Choice → Option State
  | .script => some (scriptStep w s)
  | .process n move =>
    match s.process n with
    | .running rest => some (processMove n rest s move)
    | _ => none
  | .second => some ({ s with seconds := s.seconds + 1 }.record .tick)

def Step (w : Nat → Workload) (s t : State) : Prop := ∃ c, stepBy w s c = some t

/-- Before the first call: no benchmark runs, and files of any kind may lie around. -/
structure Initial (s : State) : Prop where
  line : s.line = .rmReady
  run : s.run = 0
  process : ∀ n, s.process n = .absent
  history : s.history = []

/-- What must have happened before an event. The time of a run is what passes between its own
two signals, and the script sees no file but those of the process it has launched. -/
def Proper (before : List Event) : Event → Prop
  | .observed _ n writers => writers ≠ [] ∧ ∀ p ∈ writers, p = some n
  | .started n => .touched .ready n ∈ before
  | .finished n duration => .touched .done n ∈ before ∧ ∃ earlier meanwhile,
      before = earlier ++ .started n :: meanwhile ∧ (∀ m, .started m ∉ meanwhile) ∧
      meanwhile.count .tick = duration
  | _ => True

section Invariant

def Line.launched (line : Line) : Bool := line ∉ [.rmReady, .rmDone, .launch]

def Line.removed (line : Line) : Signal → Bool
  | .ready => line ≠ .rmReady
  | .done => line ∉ [.rmReady, .rmDone]

def Line.sawReady (line : Line) : Bool :=
  line ∈ [.initDuration, .resetExec, .waitDone, .duration, .waitBenchmark]

/-- `SECONDS` counts the execution time. -/
def Line.timing (line : Line) : Bool := line ∈ [.waitDone, .duration]

def Timed (n seconds : Nat) (history : List Event) : Prop :=
  ∃ earlier meanwhile, history = earlier ++ .started n :: meanwhile ∧
    (∀ m, .started m ∉ meanwhile) ∧ meanwhile.count .tick = seconds

/-- Only the process of the present call can be alive, and once the call has removed the files
nobody else has opened them. -/
structure Inv (s : State) : Prop where
  exited : ∀ m < s.run, s.process m = .exited
  absent : ∀ m, s.run < m → s.process m = .absent
  unlaunched : s.line.launched = false → s.process s.run = .absent
  launched : s.line.launched = true → s.process s.run ≠ .absent ∧ s.benchmarkPid = s.run
  own : ∀ f, s.line.removed f = true →
    ∀ p ∈ s.file f, p = some s.run ∧ .touched f s.run ∈ s.history
  ready : s.line.sawReady = true → .touched .ready s.run ∈ s.history
  timed : s.line.timing = true → Timed s.run s.seconds s.history
  done : s.line = .duration → .touched .done s.run ∈ s.history
  proper : Justified Proper s.history

variable {s t : State} {w : Nat → Workload}

theorem Initial.inv (h : Initial s) : Inv s where
  exited m hm := by
    rw [h.run] at hm
    exact absurd hm (Nat.not_lt_zero m)
  absent m _ := h.process m
  unlaunched _ := h.process s.run
  launched hLine := by simp [h.line, Line.launched] at hLine
  own f hLine := by cases f <;> simp [h.line, Line.removed] at hLine
  ready hLine := by simp [h.line, Line.sawReady] at hLine
  timed hLine := by simp [h.line, Line.timing] at hLine
  done hLine := by simp [h.line] at hLine
  proper := by
    rw [h.history]
    exact justified_nil

theorem Timed.append {n seconds : Nat} {history : List Event} (h : Timed n seconds history)
    {e : Event} (hTick : e ≠ .tick) (hStart : ∀ m, e ≠ .started m) :
    Timed n seconds (history ++ [e]) := by
  obtain ⟨earlier, meanwhile, hHistory, hNone, hCount⟩ := h
  refine ⟨earlier, meanwhile ++ [e], by rw [hHistory, List.append_assoc, List.cons_append], ?_, ?_⟩
  · intro m hm
    cases List.mem_append.mp hm with
    | inl hOld => exact hNone m hOld
    | inr hNew => exact hStart m (List.mem_singleton.mp hNew).symm
  · rw [List.count_append, hCount, List.count_singleton, if_neg (by simpa using hTick)]
    rfl

theorem Timed.tick {n seconds : Nat} {history : List Event} (h : Timed n seconds history) :
    Timed n (seconds + 1) (history ++ [.tick]) := by
  obtain ⟨earlier, meanwhile, hHistory, hNone, hCount⟩ := h
  refine ⟨earlier, meanwhile ++ [.tick], by rw [hHistory, List.append_assoc, List.cons_append],
    ?_, ?_⟩
  · intro m hm
    cases List.mem_append.mp hm with
    | inl hOld => exact hNone m hOld
    | inr hNew => cases List.mem_singleton.mp hNew
  · rw [List.count_append, hCount, List.count_singleton_self]

theorem timed_started (n : Nat) (history : List Event) : Timed n 0 (history ++ [.started n]) :=
  ⟨history, [], rfl, fun _ => List.not_mem_nil, rfl⟩

theorem mem_concat {e : Event} {history : List Event} (h : e ∈ history) (d : Event) :
    e ∈ history ++ [d] := List.mem_append_left [d] h

theorem Inv.running (h : Inv s) {n : Nat} {rest : List Action} (hProcess : s.process n = .running rest) :
    n = s.run ∧ s.line.launched = true := by
  have hRun : n = s.run := by
    rcases Nat.lt_trichotomy n s.run with hLt | hEq | hGt
    · rw [h.exited n hLt] at hProcess
      cases hProcess
    · exact hEq
    · rw [h.absent n hGt] at hProcess
      cases hProcess
  refine ⟨hRun, ?_⟩
  cases hLine : s.line.launched with
  | true => rfl
  | false =>
    rw [hRun, h.unlaunched hLine] at hProcess
    cases hProcess

theorem Inv.record (h : Inv s) {e : Event} (hProper : Proper s.history e) (hTick : e ≠ .tick)
    (hStart : ∀ m, e ≠ .started m) : Inv (s.record e) where
  exited := h.exited
  absent := h.absent
  unlaunched := h.unlaunched
  launched := h.launched
  own f hLine p hp := (h.own f hLine p hp).imp_right fun hMem => mem_concat hMem e
  ready hLine := mem_concat (h.ready hLine) e
  timed hLine := (h.timed hLine).append hTick hStart
  done hLine := mem_concat (h.done hLine) e
  proper := justified_concat_iff.mpr ⟨h.proper, hProper⟩

theorem Inv.second (h : Inv s) : Inv ({ s with seconds := s.seconds + 1 }.record .tick) where
  exited := h.exited
  absent := h.absent
  unlaunched := h.unlaunched
  launched := h.launched
  own f hLine p hp := (h.own f hLine p hp).imp_right fun hMem => mem_concat hMem _
  ready hLine := mem_concat (h.ready hLine) _
  timed hLine := (h.timed hLine).tick
  done hLine := mem_concat (h.done hLine) _
  proper := justified_concat_iff.mpr ⟨h.proper, trivial⟩

theorem Inv.touch (h : Inv s) (f : Signal) : Inv (s.touch s.run f) where
  exited := h.exited
  absent := h.absent
  unlaunched := h.unlaunched
  launched := h.launched
  own g hLine p hp := by
    obtain rfl | hNe := eq_or_ne g f
    · have hMem : p ∈ some s.run :: s.file g := by simpa [State.touch] using hp
      have hTouched : Event.touched g s.run ∈ (s.touch s.run g).history := by simp [State.touch]
      cases List.mem_cons.mp hMem with
      | inl hOwn => exact ⟨hOwn, hTouched⟩
      | inr hOld => exact ⟨(h.own g hLine p hOld).1, hTouched⟩
    · have hMem : p ∈ s.file g := by simpa [State.touch, hNe] using hp
      exact (h.own g hLine p hMem).imp_right fun hTouched => mem_concat hTouched _
  ready hLine := mem_concat (h.ready hLine) _
  timed hLine := (h.timed hLine).append (by simp) (by simp)
  done hLine := mem_concat (h.done hLine) _
  proper := justified_concat_iff.mpr ⟨h.proper, trivial⟩

theorem Inv.setProcess (h : Inv s) (hLaunched : s.line.launched = true) {p : Process}
    (hp : p ≠ .absent) : Inv (s.setProcess s.run p) where
  exited m hm := by
    have hNe : m ≠ s.run := Nat.ne_of_lt hm
    simpa [State.setProcess, hNe] using h.exited m hm
  absent m hm := by
    have hNe : m ≠ s.run := Nat.ne_of_gt hm
    simpa [State.setProcess, hNe] using h.absent m hm
  unlaunched hLine := absurd (hLaunched.symm.trans hLine) (by decide)
  launched _ := ⟨by simpa [State.setProcess] using hp, (h.launched hLaunched).2⟩
  own := h.own
  ready := h.ready
  timed := h.timed
  done := h.done
  proper := h.proper

theorem Inv.processMove (h : Inv s) (hLaunched : s.line.launched = true) (rest : List Action)
    (move : Move) : Inv (processMove s.run rest s move) := by
  cases move with
  | next =>
    cases rest with
    | nil => exact h.setProcess hLaunched (by simp)
    | cons a rest =>
      cases a with
      | touch f => exact (h.touch f).setProcess hLaunched (by simp)
      | work => exact h.setProcess hLaunched (by simp)
  | signalhandler => exact (h.touch .done).setProcess hLaunched (by simp)
  | quit => exact h.setProcess hLaunched (by simp)

/-- The facts that the next line needs beyond those of this one. -/
theorem Inv.goto (h : Inv s) (line : Line) (hLaunched : line.launched = s.line.launched)
    (hRemoved : ∀ f, line.removed f = true → s.line.removed f = true)
    (hReady : line.sawReady = true → .touched .ready s.run ∈ s.history)
    (hTimed : line.timing = true → Timed s.run s.seconds s.history)
    (hDone : line = .duration → .touched .done s.run ∈ s.history) : Inv (s.goto line) where
  exited := h.exited
  absent := h.absent
  unlaunched hLine := h.unlaunched (hLaunched.symm.trans hLine)
  launched hLine := h.launched (hLaunched.symm.trans hLine)
  own f hLine := h.own f (hRemoved f hLine)
  ready := hReady
  timed := hTimed
  done := hDone
  proper := h.proper

theorem Inv.rm (h : Inv s) (f : Signal) : Inv (s.rm f) where
  exited := h.exited
  absent := h.absent
  unlaunched := h.unlaunched
  launched := h.launched
  own g hLine p hp := by
    obtain rfl | hNe := eq_or_ne g f
    · simp [State.rm] at hp
    · exact h.own g hLine p (by simpa [State.rm, hNe] using hp)
  ready := h.ready
  timed := h.timed
  done := h.done
  proper := h.proper

theorem Inv.removed (h : Inv s) {f : Signal} {line : Line} (hEmpty : s.file f = [])
    (hLaunched : line.launched = false) (hNot : s.line.launched = false)
    (hRemoved : ∀ g, g ≠ f → line.removed g = true → s.line.removed g = true) :
    Inv (s.goto line) where
  exited := h.exited
  absent := h.absent
  unlaunched _ := h.unlaunched hNot
  launched hLine := absurd (hLaunched.symm.trans hLine) (by decide)
  own g hLine p hp := by
    obtain rfl | hNe := eq_or_ne g f
    · have hNone : p ∈ s.file g := hp
      rw [hEmpty] at hNone
      cases hNone
    · exact h.own g (hRemoved g hNe hLine) p hp
  ready hLine := by cases line <;> simp_all [Line.launched, Line.sawReady, State.goto]
  timed hLine := by cases line <;> simp_all [Line.launched, Line.timing, State.goto]
  done hLine := by cases line <;> simp_all [Line.launched, State.goto]
  proper := h.proper

theorem Inv.launch (h : Inv s) (hLine : s.line = .launch) (p : Process) (hp : p ≠ .absent) :
    Inv ({ s.setProcess s.run p with benchmarkPid := s.run }.goto .resetInit) where
  exited m hm := by
    have hNe : m ≠ s.run := Nat.ne_of_lt hm
    simpa [State.goto, State.setProcess, hNe] using h.exited m hm
  absent m hm := by
    have hNe : m ≠ s.run := Nat.ne_of_gt hm
    simpa [State.goto, State.setProcess, hNe] using h.absent m hm
  unlaunched hNext := by simp [State.goto, Line.launched] at hNext
  launched _ := ⟨by simpa [State.goto, State.setProcess] using hp, rfl⟩
  own f _ := h.own f (by cases f <;> simp [hLine, Line.removed])
  ready hNext := by simp [State.goto, Line.sawReady] at hNext
  timed hNext := by simp [State.goto, Line.timing] at hNext
  done hNext := by simp [State.goto] at hNext
  proper := h.proper

/-- A line that waits sees a file of its own process or goes on waiting. -/
theorem Inv.observe (h : Inv s) {f : Signal} (hRemoved : s.line.removed f = true)
    (hFile : s.file f ≠ []) :
    Inv (s.record (.observed f s.run (s.file f))) ∧
      .touched f s.run ∈ (s.record (.observed f s.run (s.file f))).history := by
  obtain ⟨p, hp⟩ := List.exists_mem_of_ne_nil _ hFile
  have hOwn := h.own f hRemoved
  refine ⟨h.record ⟨hFile, fun q hq => (hOwn q hq).1⟩ (by simp) (by simp), ?_⟩
  exact mem_concat (hOwn p hp).2 _

/-- The script waits for the process that it has launched, so that none is left at the next call. -/
theorem Inv.nextCall (h : Inv s) (hLine : s.line = .waitBenchmark)
    (hProcess : ∀ rest, s.process s.benchmarkPid ≠ .running rest) :
    Inv ({ s with run := s.run + 1 }.goto .rmReady) where
  exited m hm := by
    obtain ⟨hPresent, hPid⟩ := h.launched (by simp [hLine, Line.launched])
    cases Nat.lt_succ_iff_lt_or_eq.mp hm with
    | inl hLt => exact h.exited m hLt
    | inr hEq =>
      rw [hPid] at hProcess
      rw [hEq]
      cases hState : s.process s.run with
      | absent => exact absurd hState hPresent
      | running rest => exact absurd hState (hProcess rest)
      | exited => exact hState
  absent m hm := h.absent m (Nat.lt_of_succ_lt hm)
  unlaunched _ := h.absent _ (Nat.lt_succ_self s.run)
  launched hNext := by simp [State.goto, Line.launched] at hNext
  own f hNext := by cases f <;> simp [State.goto, Line.removed] at hNext
  ready hNext := by simp [State.goto, Line.sawReady] at hNext
  timed hNext := by simp [State.goto, Line.timing] at hNext
  done hNext := by simp [State.goto] at hNext
  proper := h.proper

theorem Inv.seconds (h : Inv s) (hLine : s.line.timing = false) (n : Nat) :
    Inv { s with seconds := n } where
  exited := h.exited
  absent := h.absent
  unlaunched := h.unlaunched
  launched := h.launched
  own := h.own
  ready := h.ready
  timed hTiming := absurd (hLine.symm.trans hTiming) (by decide)
  done := h.done
  proper := h.proper

theorem Inv.initDuration (h : Inv s) (n : Nat) : Inv { s with initDuration := n } :=
  ⟨h.exited, h.absent, h.unlaunched, h.launched, h.own, h.ready, h.timed, h.done, h.proper⟩

theorem Inv.duration (h : Inv s) (n : Nat) : Inv { s with duration := n } :=
  ⟨h.exited, h.absent, h.unlaunched, h.launched, h.own, h.ready, h.timed, h.done, h.proper⟩

theorem Inv.started (h : Inv s) (hLine : s.line = .resetExec) :
    Inv (({ s with seconds := 0 }.record (.started s.run)).goto .waitDone) where
  exited := h.exited
  absent := h.absent
  unlaunched hNext := by simp [State.goto, Line.launched] at hNext
  launched _ := h.launched (by simp [hLine, Line.launched])
  own f _ p hp := (h.own f (by cases f <;> simp [hLine, Line.removed]) p hp).imp_right
    fun hMem => mem_concat hMem _
  ready _ := mem_concat (h.ready (by simp [hLine, Line.sawReady])) _
  timed _ := timed_started s.run s.history
  done hNext := by simp [State.goto] at hNext
  proper := justified_concat_iff.mpr ⟨h.proper, h.ready (by simp [hLine, Line.sawReady])⟩

theorem Inv.scriptStep (h : Inv s) : Inv (scriptStep w s) := by
  cases hLine : s.line with
  | rmReady =>
    simp only [Scripts.scriptStep, hLine]
    refine (h.rm .ready).removed (f := .ready) (by simp [State.rm]) (by decide) ?_ ?_
    · simp [State.rm, hLine, Line.launched]
    · intro g hNe hNext
      cases g with
      | ready => exact absurd rfl hNe
      | done => simp [Line.removed] at hNext
  | rmDone =>
    simp only [Scripts.scriptStep, hLine]
    refine (h.rm .done).removed (f := .done) (by simp [State.rm]) (by decide) ?_ ?_
    · simp [State.rm, hLine, Line.launched]
    · intro g hNe _
      cases g with
      | ready => simp [State.rm, hLine, Line.removed]
      | done => exact absurd rfl hNe
  | launch =>
    simp only [Scripts.scriptStep, hLine]
    exact h.launch hLine _ (by simp)
  | resetInit =>
    simp only [Scripts.scriptStep, hLine]
    refine (h.seconds (by simp [hLine, Line.timing]) 0).goto .waitReady ?_ ?_ ?_ ?_ ?_
    · simp [hLine, Line.launched]
    · intro f _
      cases f <;> simp [hLine, Line.removed]
    · simp [Line.sawReady]
    · simp [Line.timing]
    · simp
  | waitReady =>
    simp only [Scripts.scriptStep, hLine, waitFor]
    split
    · exact h
    · rename_i hFile
      obtain ⟨hSeen, hTouched⟩ := h.observe (f := .ready) (by simp [hLine, Line.removed]) hFile
      refine hSeen.goto .initDuration ?_ ?_ ?_ ?_ ?_
      · simp [State.record, hLine, Line.launched]
      · intro f _
        cases f <;> simp [State.record, hLine, Line.removed]
      · intro _
        exact hTouched
      · simp [Line.timing]
      · simp
  | initDuration =>
    simp only [Scripts.scriptStep, hLine]
    refine (h.initDuration s.seconds).goto .resetExec ?_ ?_ ?_ ?_ ?_
    · simp [hLine, Line.launched]
    · intro f _
      cases f <;> simp [hLine, Line.removed]
    · intro _
      exact h.ready (by simp [hLine, Line.sawReady])
    · simp [Line.timing]
    · simp
  | resetExec =>
    simp only [Scripts.scriptStep, hLine]
    exact h.started hLine
  | waitDone =>
    simp only [Scripts.scriptStep, hLine, waitFor]
    split
    · exact h
    · rename_i hFile
      obtain ⟨hSeen, hTouched⟩ := h.observe (f := .done) (by simp [hLine, Line.removed]) hFile
      refine hSeen.goto .duration ?_ ?_ ?_ ?_ ?_
      · simp [State.record, hLine, Line.launched]
      · intro f _
        cases f <;> simp [State.record, hLine, Line.removed]
      · intro _
        exact hSeen.ready (by simp [State.record, hLine, Line.sawReady])
      · intro _
        exact hSeen.timed (by simp [State.record, hLine, Line.timing])
      · intro _
        exact hTouched
  | duration =>
    simp only [Scripts.scriptStep, hLine]
    have hTimed := h.timed (by simp [hLine, Line.timing])
    have hFinished := (h.duration s.seconds).record (e := .finished s.run s.seconds)
      ⟨h.done hLine, hTimed⟩ (by simp) (by simp)
    refine hFinished.goto .waitBenchmark ?_ ?_ ?_ ?_ ?_
    · simp [State.record, hLine, Line.launched]
    · intro f _
      cases f <;> simp [State.record, hLine, Line.removed]
    · intro _
      exact hFinished.ready (by simp [State.record, hLine, Line.sawReady])
    · simp [Line.timing]
    · simp
  | waitBenchmark =>
    simp only [Scripts.scriptStep, hLine]
    split
    · exact h
    · rename_i hProcess
      exact h.nextCall hLine hProcess

theorem Inv.step (h : Inv s) (hStep : Step w s t) : Inv t := by
  obtain ⟨c, hStep⟩ := hStep
  cases c with
  | script =>
    cases hStep
    exact h.scriptStep
  | process n move =>
    cases hProcess : s.process n with
    | running rest =>
      simp only [stepBy, hProcess] at hStep
      cases hStep
      obtain ⟨rfl, hLaunched⟩ := h.running hProcess
      exact h.processMove hLaunched rest move
    | absent => simp [stepBy, hProcess] at hStep
    | exited => simp [stepBy, hProcess] at hStep
  | second =>
    cases hStep
    exact h.second

end Invariant

/-- However the calls and their processes take turns, the execution time that a run records
starts after its own process has signalled that it is ready and ends after the same process has
signalled that it is done, and no file of another run is ever observed. -/
theorem execution_time_of_own_signals (w : Nat → Workload) {s t : State} (hInitial : Initial s)
    (h : ReflTransGen (Step w) s t) : Justified Proper t.history :=
  (invariant_of_reaches (fun _ _ hInv hStep => hInv.step hStep) hInitial.inv h).proper

/-- The state after some choices, none of which is refused. -/
def runBy (w : Nat → Workload) (s : State) (choices : List Choice) : Option State :=
  choices.foldlM (stepBy w) s

theorem reaches_of_runBy {w : Nat → Workload} {choices : List Choice} {s t : State}
    (h : runBy w s choices = some t) : ReflTransGen (Step w) s t := by
  induction choices generalizing s with
  | nil =>
    cases h
    exact ReflTransGen.refl
  | cons c choices ih =>
    rw [runBy, List.foldlM_cons] at h
    obtain ⟨s', hStep, hRest⟩ := Option.bind_eq_some_iff.mp h
    exact ReflTransGen.head ⟨c, hStep⟩ (ih hRest)

/-- Both files have been left behind by something else. -/
def beforeFirstCall : State where
  line := .rmReady
  run := 0
  benchmarkPid := 0
  seconds := 0
  initDuration := 0
  duration := 0
  file _ := [none]
  process _ := .absent
  history := []

/-- `btree` signals that it is done once more after the script has seen it, while the script waits
for it to exit; `graph500`, which comes next, exits by itself and signals once. -/
def benchmarkOf (run : Nat) : Workload :=
  if run = 0 then btreeWorkload else graph500Workload

def twoCalls : List Choice :=
  [.script, .script, .script, .script, .script, .process 0 .next, .process 0 .next, .script, .script,
    .script, .process 0 .next, .second, .process 0 .next, .script, .script, .process 0 .next, .script,
    .process 0 .next, .script, .script, .script, .script, .script, .process 1 .next, .process 1 .next,
    .script, .script, .script, .second, .process 1 .next, .second, .process 1 .next, .script, .script,
    .process 1 .next, .script]

theorem twoCalls_history : (runBy benchmarkOf beforeFirstCall twoCalls).map
    State.history = some [.touched .ready 0, .observed .ready 0 [some 0], .started 0, .tick,
      .touched .done 0, .observed .done 0 [some 0], .finished 0 1, .touched .done 0,
      .touched .ready 1, .observed .ready 1 [some 1], .started 1, .tick, .tick, .touched .done 1,
      .observed .done 1 [some 1], .finished 1 2] := rfl

theorem twoCalls_timed : ∃ t, runBy benchmarkOf beforeFirstCall twoCalls = some t ∧
    .finished 1 2 ∈ t.history ∧ Justified Proper t.history := by
  obtain ⟨t, hRun, hHistory⟩ := Option.map_eq_some_iff.mp twoCalls_history
  refine ⟨t, hRun, ?_, ?_⟩
  · rw [hHistory]
    decide
  · exact execution_time_of_own_signals _ ⟨rfl, rfl, fun _ => rfl, rfl⟩ (reaches_of_runBy hRun)

end Trident.Scripts
