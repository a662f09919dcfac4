import Mathlib.Data.List.Induction
import Mathlib.Tactic.IntervalCases
import OperatingSystems.Shell.Table

/-!
# Who reaps the jobs

As long as no `wait(0)` reaps an entry of the vector, the entries are children
that have not been reaped, so once all children have terminated one pass of
`checkFinishedProcesses` empties the vector and the loop on `exit` ends. The
first `wait(0)` that reaps an entry leaves an entry that stays for good.
-/

namespace OperatingSystems

namespace Shell

open OperatingSystems

/-- Every entry of the vector is a child that has not been reaped. -/
def TableSound (s : State) : Prop :=
  ∀ pid ∈ s.pids, pid ∈ s.forked ∧ s.status pid ≠ .reaped

instance (s : State) : Decidable (TableSound s) := by
  unfold TableSound
  infer_instance

def AllTerminated (s : State) : Prop := ∀ pid ∈ s.forked, s.status pid ≠ .running

instance (s : State) : Decidable (AllTerminated s) := by
  unfold AllTerminated
  infer_instance

/-- `wait(0)` reaps an entry of the vector. -/
def Steals (s : State) : Event → Prop
  | .wait pid => pid ∈ s.pids
  | _ => False

instance (s : State) (e : Event) : Decidable (Steals s e) := by
  cases e <;> unfold Steals <;> infer_instance

/-- What the vector is for: its entries can still be reaped, and when all
children have terminated one pass empties it and the loop on `exit` ends. -/
structure TableRight (s : State) : Prop where
  sound : TableSound s
  emptied : AllTerminated s → s.checkFinishedProcesses.processes = []
  exits : AllTerminated s → s.pc = .scan 0 .exit →
    ∃ k s', Transition.run next (List.replicate k .poll) s = some s' ∧ s'.pc = .exited

section Step

variable {s s' : State} {e : Event}

/-- An entry that is erased is the only one with its number. -/
theorem pid_notMem_eraseIdx (hnodup : s.pids.Nodup) {i : ℕ} {p : Process}
    (hp : s.processes[i]? = some p) : p.pid ∉ (s.processes.eraseIdx i).map Process.pid := by
  obtain ⟨hi, rfl⟩ := List.getElem?_eq_some_iff.mp hp
  have hsplit : s.processes = s.processes.take i ++ s.processes[i] :: s.processes.drop (i + 1) := by
    rw [List.getElem_cons_drop, List.take_append_drop]
  rw [State.pids, hsplit, List.map_append, List.map_cons, List.nodup_middle,
    List.nodup_cons] at hnodup
  rw [List.eraseIdx_eq_take_drop_succ, List.map_append]
  exact hnodup.1

theorem TableSound.move (hs : WellFormed s) (h : TableSound s) (hmove : Move s e s')
    (hsteals : ¬ Steals s e) : TableSound s' := by
  intro q hq
  refine ⟨(hs.move hmove).forked q hq, ?_⟩
  cases hmove with
  | background pid name hpc hfresh =>
      have hne : q ≠ pid := fun heq => hfresh (heq ▸ hs.forked q hq)
      simpa [State.launch, hne] using (h q hq).2
  | foreground pid hpc hfresh =>
      have hne : q ≠ pid := fun heq => hfresh (heq ▸ hs.forked q hq)
      simpa [State.launch, hne] using (h q hq).2
  | jobs pid hpc => exact (h q hq).2
  | cd pid hpc => exact (h q hq).2
  | exit pid hpc => exact (h q hq).2
  | check i after hpc =>
      rcases checkProcess_cases s i with heq | ⟨p, hp, hzombie, heq⟩
      · rw [heq] at hq ⊢
        exact (h q hq).2
      · rw [heq] at hq ⊢
        have hne : q ≠ p.pid := fun hqp => pid_notMem_eraseIdx hs.nodup hp (hqp ▸ hq)
        have hmem : q ∈ s.pids := ((List.eraseIdx_sublist _ _).map _).subset hq
        simpa [State.complete, State.reap, hne] using (h q hmem).2
  | finish after hpc =>
      cases after with
      | background p =>
          have hpids : (s.finish (.background p)).pids = s.pids ++ [p.pid] := List.map_append
          rw [hpids] at hq
          rcases List.mem_append.mp hq with hq | hq
          · exact (h q hq).2
          · have hpending := hs.pending p.pid (by rw [State.pending, hpc]; rfl)
            exact List.mem_singleton.mp hq ▸ hpending.2.1
      | foreground pid => exact (h q hq).2
      | exit =>
          unfold State.finish at hq ⊢
          dsimp only at hq ⊢
          split at hq
          · rw [if_pos ‹_›]
            exact (h q hq).2
          · rw [if_neg ‹_›]
            exact (h q hq).2
  | wait pid child hpc hzombie =>
      have hne : q ≠ child := fun heq => hsteals (heq ▸ hq)
      simpa [State.reap, hne] using (h q hq).2
  | waitFails pid hpc hnone => exact (h q hq).2
  | terminate child hforked hrunning =>
      by_cases heq : q = child
      · simp [heq]
      · simpa [heq] using (h q hq).2

/-- A `wait(0)` that reaps an entry leaves it in the vector. -/
theorem not_tableSound_of_steals (hmove : Move s e s') (hsteals : Steals s e) :
    ¬ TableSound s' := by
  intro h
  cases hmove with
  | wait pid child hpc hzombie =>
      apply (h child hsteals).2
      simp [State.reap]
  | _ => exact hsteals

end Step

section Pass

variable {s : State}

/-- The loop erases the entries it checks if they are zombies. -/
theorem processes_checkBelow {i : ℕ} (hnodup : s.pids.Nodup) (hi : i ≤ s.processes.length)
    (hzombie : ∀ p ∈ s.processes.take i, s.Zombie p.pid) :
    (State.checkBelow i s).processes = s.processes.drop i := by
  induction i generalizing s with
  | zero => rfl
  | succ i ih =>
      have hp : s.processes[i]? = some (s.processes.get ⟨i, hi⟩) :=
        List.getElem?_eq_getElem hi
      set p := s.processes.get ⟨i, hi⟩ with hpdef
      have hmem : p ∈ s.processes.take (i + 1) := by
        rw [List.take_add_one, hp]
        exact List.mem_append_right _ List.mem_cons_self
      have hnot := pid_notMem_eraseIdx hnodup hp
      rw [State.checkBelow, checkProcess_of_zombie hp (hzombie p hmem), ih]
      · rw [State.complete, List.eraseIdx_eq_take_drop_succ]
        exact List.drop_left' (List.length_take_of_le (Nat.le_of_succ_le hi))
      · exact hnodup.sublist ((List.eraseIdx_sublist _ _).map _)
      · rw [State.complete, List.length_eraseIdx_of_lt hi]
        exact Nat.le_sub_one_of_lt hi
      · intro q hq
        have hne : q.pid ≠ p.pid := fun heq =>
          hnot (heq ▸ List.mem_map_of_mem (List.mem_of_mem_take hq))
        rw [State.complete, List.eraseIdx_eq_take_drop_succ, List.take_left'
          (List.length_take_of_le (Nat.le_of_succ_le hi))] at hq
        obtain ⟨hforked, hstatus⟩ := hzombie q
          ((List.take_prefix_take_left (Nat.le_succ i)).subset hq)
        refine ⟨hforked, ?_⟩
        simpa [State.complete, State.reap, hne] using hstatus

/-- When all children have terminated, one pass over a sound vector empties it. -/
theorem processes_checkFinishedProcesses (hs : WellFormed s) (hsound : TableSound s)
    (hterminated : AllTerminated s) : s.checkFinishedProcesses.processes = [] := by
  rw [State.checkFinishedProcesses, processes_checkBelow hs.nodup (le_refl _),
    List.drop_length]
  intro p hp
  obtain ⟨hforked, hreaped⟩ := hsound p.pid (List.mem_map_of_mem (List.mem_of_mem_take hp))
  refine ⟨hforked, ?_⟩
  cases hstatus : s.status p.pid with
  | running => exact absurd hstatus (hterminated p.pid hforked)
  | zombie => rfl
  | reaped => exact absurd hstatus hreaped

theorem checkProcess_pc (s : State) (i : ℕ) (pc : Pc) :
    ({ s with pc := pc } : State).checkProcess i = { s.checkProcess i with pc := pc } := by
  by_cases h : ∃ p, s.processes[i]? = some p ∧ s.Zombie p.pid
  · obtain ⟨p, hp, hzombie⟩ := h
    have hp' : ({ s with pc := pc } : State).processes[i]? = some p := hp
    rw [checkProcess_of_zombie hp hzombie, checkProcess_of_zombie hp' hzombie]
    rfl
  · have hnot : ∀ p, s.processes[i]? = some p → ¬ s.Zombie p.pid :=
      fun p hp hzombie => h ⟨p, hp, hzombie⟩
    rw [checkProcess_of_not_zombie hnot, checkProcess_of_not_zombie (s := { s with pc := pc }) hnot]

theorem checkBelow_pc (s : State) (i : ℕ) (pc : Pc) :
    State.checkBelow i { s with pc := pc } = { State.checkBelow i s with pc := pc } := by
  induction i generalizing s with
  | zero => rfl
  | succ i ih =>
      rw [State.checkBelow, checkProcess_pc, ih]
      rfl

/-- The calls of `waitpid` one after the other are the pass. -/
theorem run_polls {i : ℕ} {after : After} (hpc : s.pc = .scan i after) :
    Transition.run next (List.replicate i .poll) s =
      some { State.checkBelow i s with pc := .scan 0 after } := by
  induction i generalizing s with
  | zero =>
      rw [← hpc]
      rfl
  | succ i ih =>
      have hnext := next_eq_some_iff.mpr (Move.check i after hpc)
      rw [List.replicate_succ, Transition.run, hnext, Option.bind_some, ih rfl, checkBelow_pc]
      rfl

/-- The loop on `exit` ends where the vector is empty. -/
theorem next_poll_of_empty (hpc : s.pc = .scan 0 .exit) (hempty : s.processes = []) :
    next .poll s = some { s with pc := .exited } := by
  rw [next_eq_some_iff.mpr (Move.finish .exit hpc), State.finish, if_pos hempty]

/-- From the test of the loop on `exit`, one pass that empties the vector leads
past the end of `shellMode`. -/
theorem exists_exit (hpc : s.pc = .scan 0 .exit)
    (hempty : s.checkFinishedProcesses.processes = []) :
    ∃ k s', Transition.run next (List.replicate k .poll) s = some s' ∧ s'.pc = .exited := by
  by_cases hnone : s.processes = []
  · refine ⟨1, { s with pc := .exited }, ?_, rfl⟩
    simp only [List.replicate, Transition.run, next_poll_of_empty hpc hnone, Option.bind_some]
  · have hfirst : next .poll s = some { s with pc := .scan s.processes.length .exit } := by
      rw [next_eq_some_iff.mpr (Move.finish .exit hpc), State.finish, if_neg hnone]
    have hpass := run_polls (s := { s with pc := .scan s.processes.length .exit }) rfl
    rw [checkBelow_pc] at hpass
    refine ⟨s.processes.length + 1 + 1,
      { State.checkBelow s.processes.length s with pc := .exited }, ?_, rfl⟩
    rw [List.replicate_succ, Transition.run, hfirst, Option.bind_some, List.replicate_succ',
      Transition.run_concat_eq_some]
    exact ⟨_, hpass, next_poll_of_empty rfl hempty⟩

theorem TableSound.right (hs : WellFormed s) (h : TableSound s) : TableRight s where
  sound := h
  emptied := processes_checkFinishedProcesses hs h
  exits := fun hterminated hpc =>
    exists_exit hpc (processes_checkFinishedProcesses hs h hterminated)

end Pass

/-- In every run in which no `wait(0)` reaps an entry of the vector, the entries
have not been reaped. -/
theorem tableSound_of_run {ts : List Event} {s : State}
    (hrun : Transition.run next ts start = some s)
    (hsteals : ∀ us e s', us ++ [e] <+: ts → Transition.run next us start = some s' →
      ¬ Steals s' e) : TableSound s := by
  induction ts using List.reverseRecOn generalizing s with
  | nil =>
      obtain rfl := Option.some.inj hrun
      exact fun pid hpid => absurd hpid List.not_mem_nil
  | append_singleton ts e ih =>
      obtain ⟨a, ha, hnext⟩ := Transition.run_concat_eq_some.mp hrun
      have hsound := ih ha fun us e' s' hus =>
        hsteals us e' s' (hus.trans (List.prefix_append _ _))
      exact hsound.move (WellFormed.of_run ha) (next_eq_some_iff.mp hnext)
        (hsteals ts e a (List.prefix_refl _) ha)

/-- In a run the job table is right in every state exactly when no `wait(0)`
reaps one of its entries. -/
theorem tableRight_iff {ts : List Event} {s : State}
    (hrun : Transition.run next ts start = some s) :
    (∀ us s', us <+: ts → Transition.run next us start = some s' → TableRight s') ↔
      ∀ us e s', us ++ [e] <+: ts → Transition.run next us start = some s' → ¬ Steals s' e := by
  constructor
  · intro h us e s' hus hs' hsteals
    obtain ⟨rest, rfl⟩ := hus
    rw [Transition.run_append] at hrun
    obtain ⟨t, ht, -⟩ := Option.bind_eq_some_iff.mp hrun
    obtain ⟨a, ha, hnext⟩ := Transition.run_concat_eq_some.mp ht
    obtain rfl := Option.some.inj (ha.symm.trans hs')
    exact not_tableSound_of_steals (next_eq_some_iff.mp hnext) hsteals
      (h _ t (List.prefix_append _ _) ht).sound
  · intro h us s' hus hs'
    refine (tableSound_of_run hs' fun vs e t hvs => h vs e t (hvs.trans hus)).right ?_
    exact WellFormed.of_run hs'

/-- A background job runs on while the child of a foreground command ends. -/
def quietRun : List Event :=
  [.enter (.background "sleep") 1, .poll, .enter .foreground 2, .poll, .poll, .terminate 2,
    .wait 2]

/-- The foreground wait reaps its own child, so the job table stays right. -/
theorem tableRight_iff_quietRun :
    ∃ s, Transition.run next quietRun start = some s ∧ s.pids = [1] ∧ TableRight s := by
  have hrun : Transition.run next quietRun start = some _ := rfl
  have hnone : ∀ n < 7, ∀ e s', quietRun[n]? = some e →
      Transition.run next (quietRun.take n) start = some s' → ¬ Steals s' e := by
    intro n hn e s' he hs'
    interval_cases n <;> obtain rfl := Option.some.inj he <;>
      obtain rfl := Option.some.inj hs' <;> decide
  refine ⟨_, hrun, rfl, (tableRight_iff hrun).mpr ?_ _ _ (List.prefix_refl _) hrun⟩
  rintro us e s' ⟨rest, hsplit⟩ hs'
  have hlen := congrArg List.length hsplit
  rw [List.length_append, List.length_append, List.length_singleton] at hlen
  have htake : quietRun.take us.length = us := by
    rw [← hsplit, List.append_assoc, List.take_left]
  have hget : quietRun[us.length]? = some e := by
    rw [← hsplit, List.append_assoc, List.getElem?_append_right (le_refl _)]
    simp
  have hlt : us.length < 7 := by
    simp only [quietRun, List.length_cons, List.length_nil] at hlen
    omega
  exact hnone us.length hlt e s' hget (htake.symm ▸ hs')

/-- The background job ends while the shell waits for a foreground command, and
the child of that command ends later. -/
def stolenRun : List Event :=
  [.enter (.background "sleep") 1, .poll, .enter .foreground 2, .poll, .poll, .terminate 1,
    .wait 1, .terminate 2]

/-- `wait(0)` reaps the job, which then stays in the vector: all children have
terminated, and a pass of `checkFinishedProcesses` finds nothing. -/
theorem not_tableSound_stolenRun :
    ∃ s, Transition.run next stolenRun start = some s ∧ ¬ TableSound s ∧ AllTerminated s ∧
      s.checkFinishedProcesses.processes = [⟨1, "sleep"⟩] := by
  have hrun : Transition.run next stolenRun start = some _ := rfl
  refine ⟨_, hrun, ?_, ?_, ?_⟩ <;> decide

end Shell

end OperatingSystems
