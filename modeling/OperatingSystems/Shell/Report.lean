import Mathlib.Algebra.BigOperators.Group.List.Basic
import Mathlib.Data.List.Pairwise
import OperatingSystems.Shell.Accounts

/-!
# The statistics of the shell

At every line `shellMode` reads the clock and its own use of resources, into
`initialClockTime` and `ruInitial`. When a command has finished it reads both again,
and `collectData` takes what has been added since, with the processor times of the
shell. Every report is about the time since the latest line. For a foreground command
this is its own line, so these reports are about times one after the other, and add up
to no more than the time of the whole run. For a job it is a later line than its own.

A sample of the clock and of the counters comes with every step. Times are exact, in
microseconds. `collectData` makes milliseconds of them, as floating point numbers that
`cout` rounds to six significant digits: 1999996 microseconds are printed as 2000.
-/

namespace OperatingSystems

namespace Shell

open OperatingSystems

/-- `struct timeval`. -/
structure TimeVal where
  tvSec : ℤ
  tvUsec : ℤ
  deriving DecidableEq, Repr

/-- The fields of `struct rusage` that `collectData` reads. -/
structure Rusage where
  ruUtime : TimeVal
  ruStime : TimeVal
  ruMinflt : ℤ
  ruMajflt : ℤ
  ruNvcsw : ℤ
  ruNivcsw : ℤ
  deriving DecidableEq, Repr

/-- What `gettimeofday` and `getrusage` return. -/
structure Sample where
  clockTime : TimeVal
  ru : Rusage
  deriving DecidableEq, Repr

/-- The numbers that `collectData` computes, before it rounds and prints them. -/
structure Report where
  sec : ℤ
  usec : ℤ
  userTime : ℤ
  systemTime : ℤ
  wallClockTime : ℤ
  preemptedInvoluntarily : ℤ
  preemptedVoluntarily : ℤ
  pagefaults : ℤ
  reclaims : ℤ
  deriving DecidableEq, Repr

def collectData (initialClockTime finalClockTime : TimeVal) (ruInitial ruFinal : Rusage) :
    Report where
  sec := ruFinal.ruUtime.tvSec
  usec := ruFinal.ruUtime.tvUsec
  userTime := ruFinal.ruUtime.tvSec * 1000000 + ruFinal.ruUtime.tvUsec
  systemTime := ruFinal.ruStime.tvSec * 1000000 + ruFinal.ruStime.tvUsec
  wallClockTime := (finalClockTime.tvSec - initialClockTime.tvSec) * 1000000 +
    (finalClockTime.tvUsec - initialClockTime.tvUsec)
  preemptedInvoluntarily := ruFinal.ruNivcsw - ruInitial.ruNivcsw
  preemptedVoluntarily := ruFinal.ruNvcsw - ruInitial.ruNvcsw
  pagefaults := ruFinal.ruMajflt - ruInitial.ruMajflt
  reclaims := ruFinal.ruMinflt - ruInitial.ruMinflt

/-- The report between two samples. -/
def Sample.report (initial final : Sample) : Report :=
  collectData initial.clockTime final.clockTime initial.ru final.ru

/-- What is reported as a difference. -/
inductive Measure where
  | wallClockTime
  | preemptedInvoluntarily
  | preemptedVoluntarily
  | pagefaults
  | reclaims
  deriving DecidableEq, Repr

def Sample.value (sample : Sample) : Measure → ℤ
  | .wallClockTime => sample.clockTime.tvSec * 1000000 + sample.clockTime.tvUsec
  | .preemptedInvoluntarily => sample.ru.ruNivcsw
  | .preemptedVoluntarily => sample.ru.ruNvcsw
  | .pagefaults => sample.ru.ruMajflt
  | .reclaims => sample.ru.ruMinflt

def Report.value (report : Report) : Measure → ℤ
  | .wallClockTime => report.wallClockTime
  | .preemptedInvoluntarily => report.preemptedInvoluntarily
  | .preemptedVoluntarily => report.preemptedVoluntarily
  | .pagefaults => report.pagefaults
  | .reclaims => report.reclaims

theorem Sample.value_report (initial final : Sample) (k : Measure) :
    (initial.report final).value k = final.value k - initial.value k := by
  cases k with
  | wallClockTime =>
      simp only [Sample.report, collectData, Report.value, Sample.value]
      omega
  | preemptedInvoluntarily => rfl
  | preemptedVoluntarily => rfl
  | pagefaults => rfl
  | reclaims => rfl

/-- The command that a report is printed for. -/
inductive Subject where
  | job (process : Process)
  | foreground
  deriving DecidableEq, Repr

/-- The job that a report is printed for. -/
def Subject.job? : Subject → Option Process
  | job process => some process
  | foreground => none

/-- The command whose data a step collects: `checkFinishedProcesses` has found that a job
has finished, or `wait(0)` has returned. -/
def finished (s : State) : Event → Option Subject
  | .poll =>
      match s.pc with
      | .scan (i + 1) _ => ((s.processes[i]?).filter (s.Zombie ·.pid)).map .job
      | _ => none
  | .wait _ => some .foreground
  | .waitFails => some .foreground
  | _ => none

/-- The shell with `initialClockTime`, `ruInitial` and the reports that it has printed. -/
structure Metered where
  state : State
  initial : Sample
  reports : List (Subject × Report)

/-- Both variables hold anything before the first line. -/
def metered (initial : Sample) : Metered where
  state := start
  initial := initial
  reports := []

/-- The steps of the shell, each with the sample that is taken in it. -/
def meteredNext : Event × Sample → Metered → Option Metered
  | (e, sample), m => (next e m.state).map fun state =>
      { state := state
        initial := if e.input = [] then m.initial else sample
        reports := m.reports ++ (finished m.state e).toList.map fun subject =>
          (subject, m.initial.report sample) }

/-- The line of the command that the shell is at. -/
def Pc.entered : Pc → Option Event
  | .scan _ (.background p) => some (.enter (.background p.processName) p.pid)
  | .scan _ (.foreground pid) => some (.enter .foreground pid)
  | .waiting pid => some (.enter .foreground pid)
  | _ => none

/-- A run, split at the latest line. -/
structure LatestLine (ts : List (Event × Sample)) where
  before : List (Event × Sample)
  line : Event × Sample
  after : List (Event × Sample)
  split : ts = before ++ line :: after
  isLine : line.1.input ≠ []
  latest : ∀ t ∈ after, t.1.input = []

namespace LatestLine

variable {ts : List (Event × Sample)} {t : Event × Sample}

theorem line_mem (l : LatestLine ts) : l.line ∈ ts := by
  have hmem : l.line ∈ l.before ++ l.line :: l.after :=
    List.mem_append_right _ List.mem_cons_self
  rwa [← l.split] at hmem

/-- A step without a line. -/
def snoc (l : LatestLine ts) (h : t.1.input = []) : LatestLine (ts ++ [t]) where
  before := l.before
  line := l.line
  after := l.after ++ [t]
  split := by simpa using congrArg (· ++ [t]) l.split
  isLine := l.isLine
  latest := by
    intro u hu
    rcases List.mem_append.mp hu with hu | hu
    · exact l.latest u hu
    · exact List.mem_singleton.mp hu ▸ h

/-- A new line. -/
def concat (ts : List (Event × Sample)) (h : t.1.input ≠ []) : LatestLine (ts ++ [t]) where
  before := ts
  line := t
  after := []
  split := rfl
  isLine := h
  latest := fun _ hu => absurd hu List.not_mem_nil

end LatestLine

/-- The line that launches the job has been entered. -/
def Launched (ts : List (Event × Sample)) (p : Process) : Prop :=
  ∃ sample, (.enter (.background p.processName) p.pid, sample) ∈ ts

/-- A report is printed between its line and the step that finds the command finished:
the line of a foreground command, and for a job some line after its own. -/
def Subject.Between {ts : List (Event × Sample)} (l : LatestLine ts) (e : Event) : Subject → Prop
  | .job p => Launched l.before p ∧ e = .poll
  | .foreground =>
      (∃ pid, l.line.1 = .enter .foreground pid) ∧ (e = .waitFails ∨ ∃ pid, e = .wait pid)

/-- The report is about the time from the latest line to the step that prints it. -/
def Measured (ts : List (Event × Sample)) (subject : Subject) (report : Report) : Prop :=
  ∃ (us rest : List (Event × Sample)) (final : Event × Sample) (l : LatestLine us),
    ts = us ++ final :: rest ∧ subject.Between l final.1 ∧ report = l.line.2.report final.2

/-- A step that is not a line, and keeps the line of the command. -/
structure Metered.Kept (m : Metered) (e : Event) (m' : Metered) : Prop where
  input : e.input = []
  initial : m'.initial = m.initial
  pc : m'.state.pc ≠ .prompt → m.state.pc ≠ .prompt ∧ m'.state.pc.entered = m.state.pc.entered
  processes : ∀ p ∈ m'.state.processes, p ∈ m.state.processes ∨
    m'.state.pc = .prompt ∧
      m.state.pc.entered = some (.enter (.background p.processName) p.pid)

/-- What a step does to the reports: a line starts the measurement again, and a command
that has finished is reported. -/
inductive Metered.Effect (m : Metered) (e : Event) (sample : Sample) (m' : Metered) : Prop
  | line (hinput : e.input ≠ []) (hinitial : m'.initial = sample) (hpc : m.state.pc = .prompt)
      (hreports : m'.reports = m.reports)
      (hcompletions : completions m'.state.output = completions m.state.output)
      (hprocesses : m'.state.processes = m.state.processes)
      (hentered : ∀ e', m'.state.pc.entered = some e' → e' = e)
  | quiet (hkept : m.Kept e m') (hreports : m'.reports = m.reports)
      (hcompletions : completions m'.state.output = completions m.state.output)
  | report (subject : Subject) (hkept : m.Kept e m') (hpc : m.state.pc ≠ .prompt)
      (hreports : m'.reports = m.reports ++ [(subject, m.initial.report sample)])
      (hcompletions : completions m'.state.output =
        completions m.state.output ++ subject.job?.toList)
      (hjob : ∀ p, subject = .job p → p ∈ m.state.processes ∧ e = .poll)
      (hforeground : subject = .foreground → (∃ pid, m.state.pc = .waiting pid) ∧
        m'.state.pc = .prompt ∧ (e = .waitFails ∨ ∃ pid, e = .wait pid))

section Effect

variable {m : Metered} {e : Event} {sample : Sample} {m' : Metered}

/-- The check of an entry prints a report for the job that it completes. -/
theorem effect_check {i : ℕ} {after : After} (hpc : m.state.pc = .scan (i + 1) after)
    (hstate : m'.state = { m.state.checkProcess i with pc := .scan i after })
    (hinitial : m'.initial = m.initial)
    (hreports : m'.reports = m.reports ++ (finished m.state .poll).toList.map fun subject =>
      (subject, m.initial.report sample)) : m.Effect .poll sample m' := by
  have hprompt : m.state.pc ≠ .prompt := hpc ▸ Pc.noConfusion
  have hentered : m'.state.pc.entered = m.state.pc.entered := by
    rw [hstate, hpc]
    cases after <;> rfl
  rcases hp : (m.state.processes[i]?).filter (m.state.Zombie ·.pid) with _ | p
  · have hsame : m.state.checkProcess i = m.state :=
      checkProcess_of_not_zombie fun q hq hzombie => by simp [hq, hzombie] at hp
    rw [hsame] at hstate
    refine .quiet ⟨rfl, hinitial, fun _ => ⟨hprompt, hentered⟩, fun p hp => .inl ?_⟩ ?_ ?_
    · rwa [hstate] at hp
    · rw [hreports, finished, hpc]
      simp [hp]
    · rw [hstate]
  · obtain ⟨hget, hzombie⟩ := Option.filter_eq_some_iff.mp hp
    rw [checkProcess_of_zombie hget (of_decide_eq_true hzombie)] at hstate
    refine .report (.job p) ⟨rfl, hinitial, fun _ => ⟨hprompt, hentered⟩, fun q hq => .inl ?_⟩
      hprompt ?_ ?_ (fun q hq => ?_) fun h => by contradiction
    · rw [hstate] at hq
      exact (List.eraseIdx_sublist _ _).subset hq
    · rw [hreports, finished, hpc]
      simp [hp]
    · rw [hstate]
      exact List.filterMap_append
    · obtain rfl := Subject.job.inj hq
      exact ⟨List.mem_of_getElem? hget, rfl⟩

/-- After the loop of `checkFinishedProcesses` nothing is printed but the launch of a job. -/
theorem effect_finish {after : After} (hpc : m.state.pc = .scan 0 after)
    (hstate : m'.state = m.state.finish after) (hinitial : m'.initial = m.initial)
    (hreports : m'.reports = m.reports) : m.Effect .poll sample m' := by
  have hprompt : m.state.pc ≠ .prompt := hpc ▸ Pc.noConfusion
  cases after with
  | background p =>
      refine .quiet ⟨rfl, hinitial, fun h => absurd (hstate ▸ rfl) h, fun q hq => ?_⟩ hreports ?_
      · rw [hstate] at hq
        rcases List.mem_append.mp hq with hq | hq
        · exact .inl hq
        · exact .inr ⟨hstate ▸ rfl, List.mem_singleton.mp hq ▸ hpc ▸ rfl⟩
      · rw [hstate]
        exact List.filterMap_append.trans (List.append_nil _)
  | foreground pid =>
      refine .quiet ⟨rfl, hinitial, fun _ => ⟨hprompt, ?_⟩, fun q hq => .inl ?_⟩ hreports ?_
      · rw [hstate, hpc]
        rfl
      · rwa [hstate] at hq
      · rw [hstate]
        rfl
  | exit =>
      have hkeeps : m'.state.pc.entered = none ∧ m'.state.processes = m.state.processes ∧
          m'.state.output = m.state.output := by
        rw [hstate, State.finish]
        split <;> exact ⟨rfl, rfl, rfl⟩
      obtain ⟨hentered, hprocesses, houtput⟩ := hkeeps
      refine .quiet ⟨rfl, hinitial, fun _ => ⟨hprompt, ?_⟩, fun q hq => .inl ?_⟩ hreports ?_
      · rw [hentered, hpc]
        rfl
      · rwa [hprocesses] at hq
      · rw [houtput]

/-- Every step is a line, writes nothing, or prints one report. -/
theorem effect_of_next (h : meteredNext (e, sample) m = some m') : m.Effect e sample m' := by
  obtain ⟨s, hnext, rfl⟩ := Option.map_eq_some_iff.mp h
  cases next_eq_some_iff.mp hnext with
  | background pid name hpc hfresh =>
      exact .line (List.cons_ne_nil _ _) rfl hpc (List.append_nil _) rfl rfl fun e' he' =>
        (Option.some.inj he').symm
  | foreground pid hpc hfresh =>
      exact .line (List.cons_ne_nil _ _) rfl hpc (List.append_nil _) rfl rfl fun e' he' =>
        (Option.some.inj he').symm
  | jobs pid hpc =>
      refine .line (List.cons_ne_nil _ _) rfl hpc (List.append_nil _)
        (filterMap_printJobs (fun _ _ => rfl) _) rfl fun e' he' => ?_
      rw [State.printJobs, hpc] at he'
      contradiction
  | cd pid hpc =>
      refine .line (List.cons_ne_nil _ _) rfl hpc (List.append_nil _) rfl rfl fun e' he' => ?_
      rw [hpc] at he'
      contradiction
  | exit pid hpc =>
      exact .line (List.cons_ne_nil _ _) rfl hpc (List.append_nil _) rfl rfl fun e' he' => by
        contradiction
  | check i after hpc => exact effect_check hpc rfl rfl rfl
  | finish after hpc =>
      exact effect_finish hpc rfl rfl (by rw [finished, hpc]; exact List.append_nil _)
  | wait pid child hpc hzombie =>
      exact .report .foreground ⟨rfl, rfl, fun h => absurd rfl h, fun p hp => .inl hp⟩
        (hpc ▸ Pc.noConfusion) rfl (List.append_nil _).symm (fun p hp => by contradiction)
        fun _ => ⟨⟨pid, hpc⟩, rfl, .inr ⟨child, rfl⟩⟩
  | waitFails pid hpc hnone =>
      exact .report .foreground ⟨rfl, rfl, fun h => absurd rfl h, fun p hp => .inl hp⟩
        (hpc ▸ Pc.noConfusion) rfl (List.append_nil _).symm (fun p hp => by contradiction)
        fun _ => ⟨⟨pid, hpc⟩, rfl, .inl rfl⟩
  | terminate child hforked hrunning =>
      exact .quiet ⟨rfl, rfl, fun h => ⟨h, rfl⟩, fun p hp => .inl hp⟩ (List.append_nil _) rfl

end Effect

/-- What holds after a run: the reports are measured from the latest line each, and the
jobs in the vector have been launched before the line that the shell is at. -/
structure Recorded (ts : List (Event × Sample)) (m : Metered) : Prop where
  measured : ∀ x ∈ m.reports, Measured ts x.1 x.2
  jobs : m.reports.filterMap (·.1.job?) = completions m.state.output
  launched : ∀ p ∈ m.state.processes, Launched ts p
  latest : m.state.pc ≠ .prompt → ∃ l : LatestLine ts, m.initial = l.line.2 ∧
    (∀ p ∈ m.state.processes, Launched l.before p) ∧
      ∀ e, m.state.pc.entered = some e → l.line.1 = e

section Run

variable {ts : List (Event × Sample)} {t : Event × Sample} {m m' : Metered}

theorem Launched.append {p : Process} (h : Launched ts p) (us : List (Event × Sample)) :
    Launched (ts ++ us) p := by
  obtain ⟨sample, hmem⟩ := h
  exact ⟨sample, List.mem_append_left us hmem⟩

theorem Measured.append {subject : Subject} {report : Report} (h : Measured ts subject report)
    (us : List (Event × Sample)) : Measured (ts ++ us) subject report := by
  obtain ⟨vs, rest, final, l, rfl, hbetween, hreport⟩ := h
  exact ⟨vs, rest ++ us, final, l, by simp, hbetween, hreport⟩

theorem recorded_metered (initial : Sample) : Recorded [] (metered initial) where
  measured := fun _ h => absurd h List.not_mem_nil
  jobs := rfl
  launched := fun _ h => absurd h List.not_mem_nil
  latest := fun h => absurd rfl h

namespace Recorded

theorem launched_kept (h : Recorded ts m) (hkept : m.Kept t.1 m') :
    ∀ p ∈ m'.state.processes, Launched (ts ++ [t]) p := by
  intro p hp
  rcases hkept.processes p hp with hp | ⟨-, hentered⟩
  · exact (h.launched p hp).append [t]
  · have hpc : m.state.pc ≠ .prompt := fun hpc => by
      rw [hpc] at hentered
      contradiction
    obtain ⟨l, -, -, hline⟩ := h.latest hpc
    have heq : l.line = (.enter (.background p.processName) p.pid, l.line.2) :=
      Prod.ext (hline _ hentered) rfl
    refine Launched.append ⟨l.line.2, ?_⟩ [t]
    rw [← heq]
    exact l.line_mem

theorem latest_kept (h : Recorded ts m) (hkept : m.Kept t.1 m') (hpc : m'.state.pc ≠ .prompt) :
    ∃ l : LatestLine (ts ++ [t]), m'.initial = l.line.2 ∧
      (∀ p ∈ m'.state.processes, Launched l.before p) ∧
        ∀ e, m'.state.pc.entered = some e → l.line.1 = e := by
  obtain ⟨hpc', hentered⟩ := hkept.pc hpc
  obtain ⟨l, hinitial, hbefore, hline⟩ := h.latest hpc'
  refine ⟨l.snoc hkept.input, hkept.initial.trans hinitial, fun p hp => ?_, fun e he => ?_⟩
  · exact hbefore p ((hkept.processes p hp).resolve_right fun h => hpc h.1)
  · exact hline e (hentered ▸ he)

theorem step (h : Recorded ts m) (hnext : meteredNext t m = some m') :
    Recorded (ts ++ [t]) m' := by
  obtain ⟨e, sample⟩ := t
  cases effect_of_next hnext with
  | line hinput hinitial hpc hreports hcompletions hprocesses hentered =>
      refine ⟨fun x hx => ?_, ?_, fun p hp => ?_, fun _ => ⟨.concat ts hinput, hinitial, ?_, ?_⟩⟩
      · exact (h.measured x (hreports ▸ hx)).append _
      · rw [hreports, hcompletions, h.jobs]
      · exact (h.launched p (hprocesses ▸ hp)).append _
      · exact fun p hp => h.launched p (hprocesses ▸ hp)
      · exact fun e' he' => (hentered e' he').symm
  | quiet hkept hreports hcompletions =>
      refine ⟨fun x hx => ?_, ?_, h.launched_kept hkept, h.latest_kept hkept⟩
      · exact (h.measured x (hreports ▸ hx)).append _
      · rw [hreports, hcompletions, h.jobs]
  | report subject hkept hpc hreports hcompletions hjob hforeground =>
      refine ⟨fun x hx => ?_, ?_, h.launched_kept hkept, h.latest_kept hkept⟩
      · rw [hreports] at hx
        rcases List.mem_append.mp hx with hx | hx
        · exact (h.measured x hx).append _
        · obtain rfl := List.mem_singleton.mp hx
          obtain ⟨l, hinitial, hbefore, hline⟩ := h.latest hpc
          refine ⟨ts, [], (e, sample), l, rfl, ?_, congrArg (·.report sample) hinitial⟩
          cases subject with
          | job p =>
              obtain ⟨hmem, hpoll⟩ := hjob p rfl
              exact ⟨hbefore p hmem, hpoll⟩
          | foreground =>
              obtain ⟨⟨pid, hwaiting⟩, -, hreturns⟩ := hforeground rfl
              exact ⟨⟨pid, hline _ (by rw [hwaiting]; rfl)⟩, hreturns⟩
      · rw [hreports, hcompletions, List.filterMap_append, h.jobs]
        cases subject <;> rfl

end Recorded

/-- The samples do not keep the shell from any step. -/
theorem exists_run_metered {s : State}
    (hrun : Transition.run next (ts.map Prod.fst) m.state = some s) :
    ∃ m', Transition.run meteredNext ts m = some m' ∧ m'.state = s := by
  induction ts generalizing m with
  | nil => exact ⟨m, rfl, Option.some.inj hrun⟩
  | cons t ts ih =>
      rw [List.map_cons, Transition.run, Option.bind_eq_some_iff] at hrun
      obtain ⟨a, hnext, hrun⟩ := hrun
      obtain ⟨m', hrun', hstate⟩ := ih (m := ⟨a, _, _⟩) hrun
      refine ⟨m', ?_, hstate⟩
      rw [Transition.run, meteredNext, hnext]
      exact hrun'

theorem Recorded.of_run {initial : Sample}
    (hrun : Transition.run meteredNext ts (metered initial) = some m) : Recorded ts m :=
  Transition.run_invariant ts hrun (recorded_metered initial) fun _ _ _ _ _ h hnext =>
    h.step hnext

end Run

/-- The clock and the counters never go back. -/
def Forward (ts : List (Event × Sample)) : Prop :=
  ts.Pairwise fun t u => ∀ k, t.2.value k ≤ u.2.value k

theorem Forward.head_le {ts : List (Event × Sample)} {t u : Event × Sample} (h : Forward ts)
    (hhead : ts.head? = some t) (hu : u ∈ ts) (k : Measure) : t.2.value k ≤ u.2.value k := by
  obtain ⟨rest, rfl⟩ := List.head?_eq_some_iff.mp hhead
  rcases List.mem_cons.mp hu with rfl | hu
  · exact le_refl _
  · exact List.rel_of_pairwise_cons h hu k

theorem Forward.le_getLast {ts : List (Event × Sample)} {t u : Event × Sample} (h : Forward ts)
    (hlast : ts.getLast? = some t) (hu : u ∈ ts) (k : Measure) : u.2.value k ≤ t.2.value k := by
  obtain ⟨before, rfl⟩ := List.getLast?_eq_some_iff.mp hlast
  rcases List.mem_append.mp hu with hu | hu
  · exact (List.pairwise_append.mp h).2.2 u hu t List.mem_cons_self k
  · exact List.mem_singleton.mp hu ▸ le_refl _

/-- All that the reports on foreground commands say together. -/
def Metered.foregroundTotal (m : Metered) (k : Measure) : ℤ :=
  ((m.reports.filter (·.1 = .foreground)).map (·.2.value k)).sum

/-- What the foreground commands have used, from the first sample to the line that the
shell is at, or to any later sample. -/
structure Spent (k : Measure) (first : ℤ) (ts : List (Event × Sample)) (m : Metered) : Prop where
  atLine : m.state.pc ≠ .prompt → m.foregroundTotal k ≤ m.initial.value k - first
  within : ∀ last, first ≤ last → (∀ t ∈ ts, t.2.value k ≤ last) →
    m.foregroundTotal k ≤ last - first

section Total

variable {ts : List (Event × Sample)} {t : Event × Sample} {m m' : Metered} {k : Measure}
  {first : ℤ}

theorem foregroundTotal_of_eq (h : m'.reports = m.reports) :
    m'.foregroundTotal k = m.foregroundTotal k := by
  rw [Metered.foregroundTotal, h, Metered.foregroundTotal]

theorem foregroundTotal_job {p : Process} {report : Report}
    (h : m'.reports = m.reports ++ [(.job p, report)]) :
    m'.foregroundTotal k = m.foregroundTotal k := by
  simp [Metered.foregroundTotal, h, List.filter_append]

theorem foregroundTotal_foreground {report : Report}
    (h : m'.reports = m.reports ++ [(.foreground, report)]) :
    m'.foregroundTotal k = m.foregroundTotal k + report.value k := by
  simp [Metered.foregroundTotal, h, List.filter_append]

/-- A step that leaves the total alone. -/
theorem Spent.kept (h : Spent k first ts m) (hkept : m.Kept t.1 m')
    (htotal : m'.foregroundTotal k = m.foregroundTotal k) : Spent k first (ts ++ [t]) m' where
  atLine := by
    intro hpc
    rw [htotal, hkept.initial]
    exact h.atLine (hkept.pc hpc).1
  within := by
    intro last hlast hall
    rw [htotal]
    exact h.within last hlast fun u hu => hall u (List.mem_append_left _ hu)

theorem Spent.step (h : Spent k first ts m) (hnext : meteredNext t m = some m')
    (hforward : Forward (ts ++ [t])) (hfirst : first ≤ t.2.value k) :
    Spent k first (ts ++ [t]) m' := by
  obtain ⟨e, sample⟩ := t
  have hlater : ∀ u ∈ ts, u.2.value k ≤ sample.value k := fun u hu =>
    (List.pairwise_append.mp hforward).2.2 u hu (e, sample) List.mem_cons_self k
  cases effect_of_next hnext with
  | line hinput hinitial hpc hreports hcompletions hprocesses hentered =>
      have htotal := foregroundTotal_of_eq (k := k) hreports
      refine ⟨fun _ => ?_, fun last hlast hall => ?_⟩
      · rw [htotal, hinitial]
        exact h.within _ hfirst hlater
      · rw [htotal]
        exact h.within last hlast fun u hu => hall u (List.mem_append_left _ hu)
  | quiet hkept hreports hcompletions => exact h.kept hkept (foregroundTotal_of_eq hreports)
  | report subject hkept hpc hreports hcompletions hjob hforeground =>
      cases subject with
      | job p => exact h.kept hkept (foregroundTotal_job hreports)
      | foreground =>
          refine ⟨fun hprompt => absurd (hforeground rfl).2.1 hprompt, fun last hlast hall => ?_⟩
          have hline := h.atLine hpc
          have hlast : sample.value k ≤ last :=
            hall (e, sample) (List.mem_append_right _ List.mem_cons_self)
          rw [foregroundTotal_foreground hreports, Sample.value_report]
          omega

theorem Spent.of_run {initial : Sample}
    (hrun : Transition.run meteredNext ts (metered initial) = some m) (hforward : Forward ts)
    (hfirst : ∀ t ∈ ts, first ≤ t.2.value k) : Spent k first ts m := by
  have hzero : Spent k first [] (metered initial) :=
    ⟨fun h => absurd rfl h, fun last hlast _ => Int.sub_nonneg_of_le hlast⟩
  refine Transition.run_invariant (I := fun ts m => Forward ts →
    (∀ t ∈ ts, first ≤ t.2.value k) → Spent k first ts m) ts hrun (fun _ _ => hzero)
    (fun us t a a' _ h hnext hforward hfirst => ?_) hforward hfirst
  have hus := h (List.pairwise_append.mp hforward).1 fun u hu =>
    hfirst u (List.mem_append_left _ hu)
  exact hus.step hnext hforward (hfirst t (List.mem_append_right _ List.mem_cons_self))

/-- No counter that is printed as a difference comes out negative. -/
theorem Measured.value_nonneg {subject : Subject} {report : Report}
    (h : Measured ts subject report) (hforward : Forward ts) : 0 ≤ report.value k := by
  obtain ⟨us, rest, final, l, rfl, -, rfl⟩ := h
  have hle := (List.pairwise_append.mp hforward).2.2 _ l.line_mem final List.mem_cons_self k
  rw [Sample.value_report]
  omega

end Total

/-- In every run of the shell, whatever samples are taken, the reports on jobs are about
the jobs that the shell says have completed, in this order. Every report is measured from
the latest line: for a foreground command this is its own line, for a job some line that
has been entered after its own. -/
theorem measured_of_run {ts : List (Event × Sample)} {s : State} (initial : Sample)
    (hrun : Transition.run next (ts.map Prod.fst) start = some s) :
    ∃ m, Transition.run meteredNext ts (metered initial) = some m ∧ m.state = s ∧
      m.reports.filterMap (·.1.job?) = completions s.output ∧
      ∀ x ∈ m.reports, Measured ts x.1 x.2 := by
  obtain ⟨m, hmetered, rfl⟩ := exists_run_metered (m := metered initial) hrun
  have h := Recorded.of_run hmetered
  exact ⟨m, hmetered, rfl, h.jobs, h.measured⟩

/-- Where the clock and the counters never go back, no report is negative, and the reports
on foreground commands add up to no more than what has passed in the run. -/
theorem foregroundTotal_le {ts : List (Event × Sample)} {initial : Sample} {m : Metered}
    (hrun : Transition.run meteredNext ts (metered initial) = some m) (hforward : Forward ts)
    {first last : Event × Sample} (hfirst : ts.head? = some first)
    (hlast : ts.getLast? = some last) (k : Measure) :
    (∀ x ∈ m.reports, 0 ≤ x.2.value k) ∧
      m.foregroundTotal k ≤ last.2.value k - first.2.value k := by
  refine ⟨fun x hx => ((Recorded.of_run hrun).measured x hx).value_nonneg hforward, ?_⟩
  have hspent := Spent.of_run (k := k) hrun hforward fun t ht => hforward.head_le hfirst ht k
  exact hspent.within _ (hforward.head_le hfirst (List.mem_of_getLast? hlast) k)
    fun t ht => hforward.le_getLast hlast ht k

section Example

/-- A sample in which only the clock differs from zero. -/
def Sample.atSecond (tvSec : ℤ) : Sample where
  clockTime := ⟨tvSec, 0⟩
  ru := ⟨⟨0, 0⟩, ⟨0, 0⟩, 0, 0, 0, 0⟩

theorem Sample.atSecond_le {a b : ℤ} (h : a ≤ b) (k : Measure) :
    (Sample.atSecond a).value k ≤ (Sample.atSecond b).value k := by
  cases k with
  | wallClockTime =>
      simp only [Sample.atSecond, Sample.value]
      omega
  | preemptedInvoluntarily => exact le_refl _
  | preemptedVoluntarily => exact le_refl _
  | pagefaults => exact le_refl _
  | reclaims => exact le_refl _

/-- A job that runs for twelve seconds, and a foreground command after it. -/
def sleepRun : List (Event × Sample) :=
  [(.enter (.background "sleep 12") 1, .atSecond 0), (.poll, .atSecond 0),
    (.enter .foreground 2, .atSecond 5), (.poll, .atSecond 5), (.poll, .atSecond 5),
    (.terminate 2, .atSecond 8), (.wait 2, .atSecond 8), (.enter .exit 0, .atSecond 10),
    (.poll, .atSecond 10), (.terminate 1, .atSecond 12), (.poll, .atSecond 12),
    (.poll, .atSecond 12)]

/-- The report on the job says two seconds. -/
theorem measured_of_run_sleepRun :
    ∃ m, Transition.run meteredNext sleepRun (metered (.atSecond 0)) = some m ∧
      m.reports.map (·.2.wallClockTime) = [3000000, 2000000] ∧
      m.reports.filterMap (·.1.job?) = [⟨1, "sleep 12"⟩] ∧
      ∀ x ∈ m.reports, Measured sleepRun x.1 x.2 := by
  have hrun : Transition.run next (sleepRun.map Prod.fst) start = some _ := rfl
  obtain ⟨m, hmetered, -, hjobs, hmeasured⟩ := measured_of_run (.atSecond 0) hrun
  have hreports : (Transition.run meteredNext sleepRun (metered (.atSecond 0))).map
      (fun m => m.reports.map (·.2.wallClockTime)) = some [3000000, 2000000] := rfl
  rw [hmetered] at hreports
  exact ⟨m, hmetered, Option.some.inj hreports, hjobs, hmeasured⟩

theorem foregroundTotal_le_sleepRun :
    ∃ m, Transition.run meteredNext sleepRun (metered (.atSecond 0)) = some m ∧
      m.foregroundTotal .wallClockTime = 3000000 ∧ m.foregroundTotal .wallClockTime ≤ 12000000 := by
  have hrun : Transition.run meteredNext sleepRun (metered (.atSecond 0)) = some _ := rfl
  have hforward : Forward sleepRun := by simp [Forward, sleepRun, Sample.atSecond_le]
  exact ⟨_, hrun, rfl, (foregroundTotal_le hrun hforward rfl rfl .wallClockTime).2⟩

end Example

end Shell

end OperatingSystems
