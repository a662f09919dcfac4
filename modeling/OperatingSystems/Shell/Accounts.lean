import OperatingSystems.Shell.Children

/-!
# What the shell says about its jobs

Every background job is announced when it is launched, and a line says when it has
completed. In every run the jobs announced are those completed and those still in
the vector. A job is completed at most once, and only after it has terminated; when
`shellMode` ends all of them have been reported.
-/

namespace OperatingSystems

namespace Shell

open OperatingSystems

namespace Line

/-- The job that a line announces. -/
def launched? : Line → Option Process
  | launched _ process => some process
  | _ => none

/-- The job that a line reports. -/
def completed? : Line → Option Process
  | completed _ process => some process
  | _ => none

end Line

/-- The jobs announced, in order. -/
def launches (output : List Line) : List Process := output.filterMap Line.launched?

/-- The jobs reported as completed, in order. -/
def completions (output : List Line) : List Process := output.filterMap Line.completed?

/-- The lines that `jobs` prints are none of those that `f` keeps. -/
theorem filterMap_printJobs {f : Line → Option Process}
    (hf : ∀ number process, f (.listed number process) = none) (s : State) :
    s.printJobs.output.filterMap f = s.output.filterMap f := by
  have hlisted : (s.processes.mapIdx fun i p => Line.listed (i + 1) p).filterMap f = [] := by
    refine List.filterMap_eq_nil_iff.mpr fun line hline => ?_
    obtain ⟨i, hi, rfl⟩ := List.mem_mapIdx.mp hline
    exact hf _ _
  rw [State.printJobs, List.filterMap_append, hlisted, List.append_nil]

/-- What holds of the lines in every reachable state. -/
structure Accounted (s : State) : Prop where
  perm : (launches s.output).Perm (completions s.output ++ s.processes)
  known : ∀ p ∈ launches s.output, p.pid ∈ s.forked ∧ s.pending ≠ some p.pid
  nodup : ((launches s.output).map Process.pid).Nodup
  reaped : ∀ p ∈ completions s.output, s.status p.pid = .reaped

theorem accounted_start : Accounted start where
  perm := List.Perm.nil
  known := fun _ h => absurd h List.not_mem_nil
  nodup := List.nodup_nil
  reaped := fun _ h => absurd h List.not_mem_nil

namespace Accounted

variable {s s' : State}

/-- A job that is completed has been announced. -/
theorem forked_of_completed (h : Accounted s) {p : Process} (hp : p ∈ completions s.output) :
    p.pid ∈ s.forked :=
  (h.known p (h.perm.mem_iff.mpr (List.mem_append_left _ hp))).1

/-- A step that writes nothing about jobs that are launched or completed. -/
theorem congr (h : Accounted s) (hlaunches : launches s'.output = launches s.output)
    (hcompletions : completions s'.output = completions s.output)
    (hprocesses : s'.processes = s.processes) (hforked : s.forked ⊆ s'.forked)
    (hpending : ∀ pid ∈ s.forked, s'.pending = some pid → s.pending = some pid)
    (hstatus : ∀ pid ∈ s.forked, s.status pid = .reaped → s'.status pid = .reaped) :
    Accounted s' where
  perm := by
    rw [hlaunches, hcompletions, hprocesses]
    exact h.perm
  known := by
    intro p hp
    rw [hlaunches] at hp
    obtain ⟨hmem, hnot⟩ := h.known p hp
    exact ⟨hforked hmem, fun heq => hnot (hpending _ hmem heq)⟩
  nodup := by
    rw [hlaunches]
    exact h.nodup
  reaped := by
    intro p hp
    rw [hcompletions] at hp
    exact hstatus _ (h.forked_of_completed hp) (h.reaped p hp)

theorem launch (h : Accounted s) {pid : ℕ} {after : After} (hfresh : pid ∉ s.forked)
    (hpending : (s.launch pid after).pending = some pid) : Accounted (s.launch pid after) := by
  refine h.congr rfl rfl rfl (List.subset_append_left _ _) (fun q hq heq => ?_)
    fun q hq hstatus => ?_
  · obtain rfl := Option.some.inj (hpending.symm.trans heq)
    exact absurd hq hfresh
  · have hne : q ≠ pid := fun heq => hfresh (heq ▸ hq)
    simpa [State.launch, hne] using hstatus

/-- `jobs` lists, and says nothing new. -/
theorem printJobs (h : Accounted s) : Accounted s.printJobs :=
  h.congr (filterMap_printJobs (fun _ _ => rfl) s) (filterMap_printJobs (fun _ _ => rfl) s) rfl
    (List.Subset.refl _) (fun _ _ heq => heq) fun _ _ hstatus => hstatus

/-- A job that has finished goes from the vector to the completed ones. -/
theorem complete (h : Accounted s) {i : ℕ} {p : Process} (hp : s.processes[i]? = some p) :
    Accounted (s.complete i p) := by
  obtain ⟨hi, hget⟩ := List.getElem?_eq_some_iff.mp hp
  have hlaunches : launches (s.complete i p).output = launches s.output :=
    List.filterMap_append.trans (List.append_nil _)
  have hcompletions : completions (s.complete i p).output = completions s.output ++ [p] :=
    List.filterMap_append
  refine ⟨?_, ?_, ?_, fun q hq => ?_⟩
  · have hperm := List.getElem_cons_eraseIdx_perm hi
    rw [hget] at hperm
    rw [hlaunches, hcompletions, List.append_assoc]
    exact h.perm.trans (hperm.symm.append_left _)
  · rw [hlaunches]
    exact h.known
  · rw [hlaunches]
    exact h.nodup
  · rw [hcompletions] at hq
    by_cases hpid : q.pid = p.pid
    · simp [State.complete, State.reap, hpid]
    · have hmem : q ∈ completions s.output := (List.mem_append.mp hq).resolve_right fun hq =>
        hpid (congrArg Process.pid (List.mem_singleton.mp hq))
      simpa [State.complete, State.reap, hpid] using h.reaped q hmem

theorem check (h : Accounted s) {i : ℕ} {after : After} (hpc : s.pc = .scan (i + 1) after) :
    Accounted { s.checkProcess i with pc := .scan i after } := by
  have hpending : s.pending = after.child := by rw [State.pending, hpc]
  rcases checkProcess_cases s i with heq | ⟨p, hp, hzombie, heq⟩
  · rw [heq]
    exact h.congr rfl rfl rfl (List.Subset.refl _) (fun _ _ hsome => hpending.trans hsome)
      fun _ _ hstatus => hstatus
  · rw [heq]
    have hsame : (s.complete i p).pending = after.child := by
      simp only [State.complete, State.reap, State.pending, hpc]
    exact (h.complete hp).congr rfl rfl rfl (List.Subset.refl _)
      (fun _ _ hsome => hsame.trans hsome) fun _ _ hstatus => hstatus

/-- The job that has been launched comes to the end of the vector. -/
theorem background (h : Accounted s) (hs : WellFormed s) {p : Process}
    (hpc : s.pc = .scan 0 (.background p)) : Accounted (s.finish (.background p)) := by
  have hpending : s.pending = some p.pid := by
    rw [State.pending, hpc]
    rfl
  have hlaunches : launches (s.finish (.background p)).output = launches s.output ++ [p] :=
    List.filterMap_append
  have hcompletions : completions (s.finish (.background p)).output = completions s.output :=
    List.filterMap_append.trans (List.append_nil _)
  refine ⟨?_, fun q hq => ⟨?_, fun heq => by contradiction⟩, ?_, ?_⟩
  · rw [hlaunches, hcompletions]
    have hperm := h.perm.append_right [p]
    rwa [List.append_assoc] at hperm
  · rw [hlaunches] at hq
    rcases List.mem_append.mp hq with hq | hq
    · exact (h.known q hq).1
    · rw [List.mem_singleton.mp hq]
      exact (hs.pending _ hpending).1
  · rw [hlaunches, List.map_append]
    refine List.nodup_append.mpr ⟨h.nodup, List.nodup_singleton _, fun a ha b hb heq => ?_⟩
    obtain ⟨q, hq, rfl⟩ := List.mem_map.mp ha
    rw [List.mem_singleton.mp hb] at heq
    exact (h.known q hq).2 (heq ▸ hpending)
  · rw [hcompletions]
    exact h.reaped

theorem move (h : Accounted s) (hs : WellFormed s) {e : Event} (hmove : Move s e s') :
    Accounted s' := by
  cases hmove with
  | background pid name hpc hfresh => exact h.launch hfresh rfl
  | foreground pid hpc hfresh => exact h.launch hfresh rfl
  | jobs pid hpc => exact h.printJobs
  | cd pid hpc => exact h
  | exit pid hpc =>
      exact h.congr rfl rfl rfl (List.Subset.refl _) (fun _ _ heq => by contradiction)
        fun _ _ hstatus => hstatus
  | check i after hpc => exact h.check hpc
  | finish after hpc =>
      have hpending : s.pending = after.child := by rw [State.pending, hpc]
      cases after with
      | background p => exact h.background hs hpc
      | foreground pid =>
          exact h.congr rfl rfl rfl (List.Subset.refl _) (fun _ _ heq => hpending.trans heq)
            fun _ _ hstatus => hstatus
      | exit =>
          unfold State.finish
          dsimp only
          split <;>
            exact h.congr rfl rfl rfl (List.Subset.refl _) (fun _ _ heq => by contradiction)
              fun _ _ hstatus => hstatus
  | wait pid child hpc hzombie =>
      refine h.congr rfl rfl rfl (List.Subset.refl _) (fun _ _ heq => by contradiction)
        fun q _ hstatus => ?_
      by_cases hq : q = child
      · simp [State.reap, hq]
      · simpa [State.reap, hq] using hstatus
  | waitFails pid hpc hnone =>
      exact h.congr rfl rfl rfl (List.Subset.refl _) (fun _ _ heq => by contradiction)
        fun _ _ hstatus => hstatus
  | terminate child hforked hrunning =>
      refine h.congr rfl rfl rfl (List.Subset.refl _) (fun _ _ heq => heq) fun q _ hstatus => ?_
      have hne : q ≠ child := by
        rintro rfl
        rw [hrunning] at hstatus
        contradiction
      simpa [hne] using hstatus

theorem of_run {ts : List Event} (hrun : Transition.run next ts start = some s) :
    Accounted s := by
  have hreach := Transition.Reachable.of_run ts Relation.ReflTransGen.refl hrun
  have hinvariant : WellFormed s ∧ Accounted s := by
    refine hreach.invariant (I := fun s => WellFormed s ∧ Accounted s)
      ⟨wellFormed_start, accounted_start⟩ fun e a a' _ ha hnext => ?_
    have hmove := next_eq_some_iff.mp hnext
    exact ⟨ha.1.move hmove, ha.2.move ha.1 hmove⟩
  exact hinvariant.2

end Accounted

/-- In every run the jobs announced are different children, and they are those that
have been reported as completed together with those in the vector: no job is reported
twice, and none that has not been announced. A job that is reported has been reaped.
When `shellMode` has ended, every job announced has been reported. -/
theorem accounts_of_run {ts : List Event} {s : State}
    (hrun : Transition.run next ts start = some s) :
    (launches s.output).Perm (completions s.output ++ s.processes) ∧
      ((launches s.output).map Process.pid).Nodup ∧
      (∀ p ∈ completions s.output, s.status p.pid = .reaped) ∧
      (s.pc = .exited → (launches s.output).Perm (completions s.output)) := by
  have h := Accounted.of_run hrun
  refine ⟨h.perm, h.nodup, h.reaped, fun hpc => ?_⟩
  have hperm := h.perm
  rwa [processes_of_exited hrun hpc, List.append_nil] at hperm

/-- Two jobs that are completed in the other order. -/
def twoJobsRun : List Event :=
  [.enter (.background "sleep") 1, .poll, .enter (.background "cat") 2, .poll, .poll,
    .terminate 1, .terminate 2, .enter .exit 0, .poll, .poll, .poll, .poll]

theorem accounts_of_run_twoJobs :
    ∃ s, Transition.run next twoJobsRun start = some s ∧ s.pc = .exited ∧
      completions s.output = [⟨2, "cat"⟩, ⟨1, "sleep"⟩] ∧
      (launches s.output).Perm (completions s.output) := by
  have hrun : Transition.run next twoJobsRun start = some _ := rfl
  exact ⟨_, hrun, rfl, rfl, (accounts_of_run hrun).2.2.2 rfl⟩

end Shell

end OperatingSystems
