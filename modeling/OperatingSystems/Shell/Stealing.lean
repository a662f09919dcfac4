import Mathlib.Data.List.TakeWhile
import OperatingSystems.Shell.Foreground

/-!
# A job that ends during the wait

From a prompt without zombies every command can be entered so that the next
prompt has no zombies either: a background job runs on, and the child of a
foreground command ends while the shell waits for it. So once a background
command has been entered there is a run to a foreground command in which a job
still runs. If that job ends during the wait, `wait(0)` reaps it, and the shell
returns to the prompt too early.
-/

namespace OperatingSystems

namespace Shell

open OperatingSystems

/-- The prompt without zombies, and with all jobs running. -/
structure Quiet (s : State) : Prop where
  pc : s.pc = .prompt
  zombie : ∀ q ∈ s.forked, s.status q ≠ .zombie
  running : ∀ q ∈ s.pids, q ∈ s.forked ∧ s.status q = .running

theorem quiet_start : Quiet start where
  pc := rfl
  zombie := fun _ hq => absurd hq List.not_mem_nil
  running := fun _ hq => absurd hq List.not_mem_nil

theorem inputs_append (ts us : List Event) : inputs (ts ++ us) = inputs ts ++ inputs us :=
  List.flatMap_append

theorem inputs_polls (n : ℕ) : inputs (List.replicate n .poll) = [] := by
  induction n with
  | zero => rfl
  | succ n ih =>
      rw [List.replicate_succ, inputs, List.flatMap_cons]
      exact ih

theorem exists_fresh (l : List ℕ) : ∃ n, n ∉ l := by
  have hbound : ∃ n, ∀ m ∈ l, m < n := by
    induction l with
    | nil => exact ⟨0, fun m hm => absurd hm List.not_mem_nil⟩
    | cons a l ih =>
        obtain ⟨n, hn⟩ := ih
        refine ⟨max (a + 1) n, fun m hm => ?_⟩
        rcases List.mem_cons.mp hm with rfl | hm
        · exact lt_max_of_lt_left (Nat.lt_succ_self m)
        · exact lt_max_of_lt_right (hn m hm)
  obtain ⟨n, hn⟩ := hbound
  exact ⟨n, fun hmem => lt_irrefl n (hn n hmem)⟩

theorem checkBelow_of_not_zombie {s : State} (h : ∀ p ∈ s.processes, ¬ s.Zombie p.pid) (i : ℕ) :
    State.checkBelow i s = s := by
  induction i with
  | zero => rfl
  | succ i ih =>
      have hsame : s.checkProcess i = s :=
        checkProcess_of_not_zombie fun p hp => h p (List.mem_of_getElem? hp)
      rw [State.checkBelow, hsame, ih]

/-- The events of a command that forks `pid`, with `n` jobs to check. -/
def launchEvents (c : Command) (pid n : ℕ) : List Event :=
  .enter c pid :: List.replicate (n + 1) .poll

theorem inputs_launchEvents (c : Command) (pid n : ℕ) : inputs (launchEvents c pid n) = [c] := by
  rw [launchEvents, inputs, List.flatMap_cons, ← inputs, inputs_polls]
  rfl

namespace Quiet

variable {s : State}

/-- The pass after a command finds no zombies. -/
theorem run_launchEvents (hs : Quiet s) {c : Command} {pid : ℕ} {after : After}
    (hnext : next (.enter c pid) s = some (s.launch pid after)) :
    Transition.run next (launchEvents c pid s.processes.length) s =
      some (State.finish { s.launch pid after with pc := .scan 0 after } after) := by
  have hzombie : ∀ p ∈ (s.launch pid after).processes, ¬ (s.launch pid after).Zombie p.pid := by
    intro p hp hz
    have hrunning := (hs.running p.pid (List.mem_map_of_mem hp)).2
    have hstatus : (s.launch pid after).status p.pid = .running := by
      by_cases heq : p.pid = pid <;> simp [State.launch, heq, hrunning]
    rw [hz.2] at hstatus
    contradiction
  have hpass := run_polls (s := s.launch pid after) rfl
  rw [checkBelow_of_not_zombie hzombie] at hpass
  rw [launchEvents, Transition.run, hnext, Option.bind_some, List.replicate_succ',
    Transition.run_concat_eq_some]
  exact ⟨_, hpass, next_eq_some_iff.mpr (Move.finish after rfl)⟩

theorem run_background (hs : Quiet s) {pid : ℕ} (hfresh : pid ∉ s.forked) (name : String) :
    ∃ s', Transition.run next (launchEvents (.background name) pid s.processes.length) s =
      some s' ∧ Quiet s' ∧ s'.pids = s.pids ++ [pid] := by
  have hnext := next_eq_some_iff.mpr (Move.background pid name hs.pc hfresh)
  set s' : State := State.finish
    { s.launch pid (.background ⟨pid, name⟩) with pc := .scan 0 (.background ⟨pid, name⟩) }
    (.background ⟨pid, name⟩)
  have hpids : s'.pids = s.pids ++ [pid] := List.map_append
  refine ⟨s', hs.run_launchEvents hnext, ⟨rfl, ?_, ?_⟩, hpids⟩
  · intro q hq
    by_cases heq : q = pid
    · simp [s', State.finish, State.launch, heq]
    · have hq : q ∈ s.forked := (List.mem_append.mp hq).resolve_right fun hq =>
        heq (List.mem_singleton.mp hq)
      simpa [s', State.finish, State.launch, heq] using hs.zombie q hq
  · intro q hq
    rw [hpids] at hq
    by_cases heq : q = pid
    · simp [s', State.finish, State.launch, heq]
    · have hq : q ∈ s.pids := (List.mem_append.mp hq).resolve_right fun hq =>
        heq (List.mem_singleton.mp hq)
      refine ⟨List.mem_append_left _ (hs.running q hq).1, ?_⟩
      simpa [s', State.finish, State.launch, heq] using (hs.running q hq).2

/-- A foreground command leads to the wait with its child running. -/
theorem run_foreground (hs : Quiet s) {pid : ℕ} (hfresh : pid ∉ s.forked) :
    Transition.run next (launchEvents .foreground pid s.processes.length) s =
      some { s.launch pid (.foreground pid) with pc := .waiting pid } :=
  hs.run_launchEvents (next_eq_some_iff.mpr (Move.foreground pid hs.pc hfresh))

end Quiet

/-- A child that ends during the wait is reaped by it. -/
theorem run_terminate_wait {s : State} {pid child : ℕ} (hpc : s.pc = .waiting pid)
    (hforked : child ∈ s.forked) (hrunning : s.status child = .running) :
    Transition.run next [.terminate child, .wait child] s =
      some { s with pc := .prompt, status := Function.update s.status child .reaped } := by
  have hterminate := next_eq_some_iff.mpr (Move.terminate child hforked hrunning)
  have hzombie : ({ s with status := Function.update s.status child .zombie } : State).Zombie
      child := ⟨hforked, Function.update_self _ _ _⟩
  have hwait := next_eq_some_iff.mpr (Move.wait pid child
    (s := { s with status := Function.update s.status child .zombie }) hpc hzombie)
  rw [Transition.run, hterminate, Option.bind_some, Transition.run, hwait, Option.bind_some,
    Transition.run, State.reap, Function.update_idem]

namespace Quiet

variable {s : State}

/-- The child of a foreground command ends during the wait. -/
theorem exists_foreground (hs : Quiet s) (hwell : WellFormed s) :
    ∃ ts s', Transition.run next ts s = some s' ∧ inputs ts = [.foreground] ∧ Quiet s' ∧
      s'.pids = s.pids := by
  obtain ⟨pid, hfresh⟩ := exists_fresh s.forked
  set w : State := { s.launch pid (.foreground pid) with pc := .waiting pid } with hw
  have hmem : pid ∈ w.forked := List.mem_append_right _ List.mem_cons_self
  have hrunning : w.status pid = .running := Function.update_self _ _ _
  refine ⟨launchEvents .foreground pid s.processes.length ++ [.terminate pid, .wait pid],
    { w with pc := .prompt, status := Function.update w.status pid .reaped }, ?_, ?_,
    ⟨rfl, ?_, ?_⟩, rfl⟩
  · rw [Transition.run_append, hs.run_foreground hfresh, Option.bind_some]
    exact run_terminate_wait rfl hmem hrunning
  · rw [inputs_append, inputs_launchEvents]
    rfl
  · intro q hq
    by_cases heq : q = pid
    · simp [heq]
    · have hq : q ∈ s.forked := (List.mem_append.mp hq).resolve_right fun hq =>
        heq (List.mem_singleton.mp hq)
      simpa [w, State.launch, heq] using hs.zombie q hq
  · intro q hq
    have heq : q ≠ pid := fun heq => hfresh (heq ▸ hwell.forked q hq)
    refine ⟨List.mem_append_left _ (hs.running q hq).1, ?_⟩
    simpa [w, State.launch, heq] using (hs.running q hq).2

/-- Every command but `exit` leads from a quiet prompt to a quiet prompt, and a
background command leaves a job. -/
theorem exists_command (hs : Quiet s) (hwell : WellFormed s) {c : Command} (hc : c ≠ .exit) :
    ∃ ts s', Transition.run next ts s = some s' ∧ inputs ts = [c] ∧ Quiet s' ∧
      (s.pids ≠ [] ∨ (∃ name, c = .background name) → s'.pids ≠ []) := by
  cases c with
  | background name =>
      obtain ⟨pid, hfresh⟩ := exists_fresh s.forked
      obtain ⟨s', hrun, hquiet, hpids⟩ := hs.run_background hfresh name
      refine ⟨_, s', hrun, inputs_launchEvents _ _ _, hquiet, fun _ => ?_⟩
      rw [hpids]
      exact List.append_ne_nil_of_right_ne_nil _ (List.cons_ne_nil _ _)
  | foreground =>
      obtain ⟨ts, s', hrun, hinputs, hquiet, hpids⟩ := hs.exists_foreground hwell
      refine ⟨ts, s', hrun, hinputs, hquiet, ?_⟩
      rintro (hne | ⟨name, hname⟩)
      · exact hpids ▸ hne
      · contradiction
  | jobs =>
      have hnext := next_eq_some_iff.mpr (Move.jobs 0 hs.pc)
      refine ⟨[.enter .jobs 0], s.printJobs, ?_, rfl, ⟨hs.pc, hs.zombie, hs.running⟩, ?_⟩
      · rw [Transition.run, hnext, Option.bind_some, Transition.run]
      · rintro (hne | ⟨name, hname⟩)
        · exact hne
        · contradiction
  | cd =>
      have hnext := next_eq_some_iff.mpr (Move.cd 0 hs.pc)
      refine ⟨[.enter .cd 0], s, ?_, rfl, hs, ?_⟩
      · rw [Transition.run, hnext, Option.bind_some, Transition.run]
      · rintro (hne | ⟨name, hname⟩)
        · exact hne
        · contradiction
  | exit => exact absurd rfl hc

end Quiet

/-- All commands up to `exit` can be entered with quiet prompts between them. -/
theorem exists_quiet_run {cs : List Command} (hexit : .exit ∉ cs) :
    ∃ ts s, Transition.run next ts start = some s ∧ inputs ts = cs ∧ Quiet s ∧
      ((∃ name, .background name ∈ cs) → s.pids ≠ []) := by
  induction cs using List.reverseRecOn with
  | nil =>
      refine ⟨[], start, rfl, rfl, quiet_start, ?_⟩
      rintro ⟨name, hname⟩
      exact absurd hname List.not_mem_nil
  | append_singleton cs c ih =>
      obtain ⟨ts, s, hrun, hinputs, hquiet, hjobs⟩ :=
        ih fun hmem => hexit (List.mem_append_left _ hmem)
      have hc : c ≠ .exit := fun heq =>
        hexit (List.mem_append_right _ (List.mem_singleton.mpr heq.symm))
      obtain ⟨us, s', hrun', hinputs', hquiet', hjobs'⟩ :=
        hquiet.exists_command (WellFormed.of_run hrun) hc
      refine ⟨ts ++ us, s', ?_, ?_, hquiet', ?_⟩
      · rw [Transition.run_append, hrun, Option.bind_some, hrun']
      · rw [inputs_append, hinputs, hinputs']
      · rintro ⟨name, hname⟩
        apply hjobs'
        rcases List.mem_append.mp hname with hname | hname
        · exact .inl (hjobs ⟨name, hname⟩)
        · exact .inr ⟨name, (List.mem_singleton.mp hname).symm⟩

/-- After a background command there is a run in which a foreground command is
not waited for. -/
theorem not_foregroundWaited {cs : List Command} {name : String} (hexit : .exit ∉ cs)
    (hname : .background name ∈ cs) (commands : List Command)
    (hpre : cs ++ [.foreground] <+: commands) : ¬ ForegroundWaited commands := by
  intro h
  obtain ⟨ts, s, hrun, hinputs, hquiet, hjobs⟩ := exists_quiet_run hexit
  obtain ⟨job, hjob⟩ := List.exists_mem_of_ne_nil _ (hjobs ⟨name, hname⟩)
  obtain ⟨pid, hfresh⟩ := exists_fresh s.forked
  obtain ⟨hforked, hrunning⟩ := hquiet.running job hjob
  have hne : job ≠ pid := fun heq => hfresh (heq ▸ hforked)
  set w : State := { s.launch pid (.foreground pid) with pc := .waiting pid }
  have hwaits : w.status job = .running := by
    simpa [w, State.launch, hne] using hrunning
  have hsteal := run_terminate_wait (s := w) rfl (List.mem_append_left _ hforked) hwaits
  rw [← List.singleton_append, Transition.run_concat_eq_some] at hsteal
  obtain ⟨t, ht, hwait⟩ := hsteal
  have hwaiting : t.pc = .waiting pid := by
    rw [Transition.run, Option.bind_eq_some_iff] at ht
    obtain ⟨t', hnext, ht'⟩ := ht
    obtain rfl := Option.some.inj ht'
    cases next_eq_some_iff.mp hnext with
    | terminate child _ _ => rfl
  have hreturn := h (ts ++ launchEvents .foreground pid s.processes.length ++ [.terminate job])
    (.wait job) t _ pid ?_ ?_ hwaiting hwait rfl
  · apply hreturn
    simp [w, State.launch, hne.symm]
  · rw [Transition.run_append, Transition.run_append, hrun, Option.bind_some,
      hquiet.run_foreground hfresh, Option.bind_some]
    exact ht
  · rw [inputs_append, inputs_append, hinputs, inputs_launchEvents]
    exact (List.append_nil (cs ++ [Command.foreground])).symm ▸ hpre

/-- The foreground commands are waited for in every run on some commands exactly
when none of them follows a background command. -/
theorem foregroundWaited_iff (commands : List Command) :
    ForegroundWaited commands ↔ ForegroundFirst commands := by
  constructor
  · intro h name hsub
    obtain ⟨before, after, hsplit, hname, hfore⟩ := List.cons_sublist_iff.mp hsub
    obtain ⟨middle, rest, rfl⟩ := List.append_of_mem (List.singleton_sublist.mp hfore)
    have hpre : before ++ middle ++ [.foreground] <+: commands := by
      refine List.IsPrefix.trans ?_ (List.takeWhile_prefix (· ≠ Command.exit))
      rw [hsplit]
      exact ⟨rest, by simp⟩
    have hexit : .exit ∉ before ++ middle := by
      intro hmem
      have htake : Command.exit ∈ commands.takeWhile (· ≠ .exit) := by
        rw [hsplit, ← List.append_assoc]
        exact List.mem_append_left _ hmem
      simpa using List.mem_takeWhile_imp htake
    exact not_foregroundWaited hexit (List.mem_append_left _ hname) commands hpre h
  · exact foregroundWaited_of_first

/-- A background job and then a foreground command. -/
def twoCommands : List Command := [.background "sleep", .foreground]

/-- The job ends during the wait, and the prompt is back while the child of the
foreground command runs. -/
theorem not_foregroundWaited_twoCommands : ¬ ForegroundWaited twoCommands := by
  intro h
  have hrun : Transition.run next [.enter (.background "sleep") 1, .poll, .enter .foreground 2,
    .poll, .poll, .terminate 1] start = some _ := rfl
  have hreturn := h _ (.wait 1) _ _ 2 hrun (by decide) rfl rfl rfl
  exact absurd hreturn (by decide)

end Shell

end OperatingSystems
