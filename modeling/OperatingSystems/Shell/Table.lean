import Mathlib.Data.List.Nodup
import OperatingSystems.Shell.Machine

/-!
# The job table

In every reachable state the vector `processes` holds different children, and
the child of the command being entered is neither reaped nor in the vector. An
entry of the vector may be a child that has been reaped: `wait(0)` for a
foreground command can reap a background job, and `waitpid` never returns the
number of that job again.
-/

namespace OperatingSystems

namespace Shell

open OperatingSystems

/-- The child that `shellMode` has just forked. -/
def After.child : After → Option ℕ
  | .background p => some p.pid
  | .foreground pid => some pid
  | .exit => none

/-- The child of the command that is being entered. -/
def State.pending (s : State) : Option ℕ :=
  match s.pc with
  | .scan _ after => after.child
  | .waiting pid => some pid
  | _ => none

/-- What holds of the vector in every reachable state. -/
structure WellFormed (s : State) : Prop where
  nodup : s.pids.Nodup
  forked : ∀ pid ∈ s.pids, pid ∈ s.forked
  index : ∀ i after, s.pc = .scan i after → i ≤ s.processes.length
  pending : ∀ pid, s.pending = some pid →
    pid ∈ s.forked ∧ s.status pid ≠ .reaped ∧ pid ∉ s.pids

section Check

variable {s : State} {i : ℕ}

/-- The state after entry `i` has been found to have finished. -/
def State.complete (s : State) (i : ℕ) (p : Process) : State :=
  { s.reap p.pid with
    processes := s.processes.eraseIdx i
    output := s.output ++ [.completed (i + 1) p] }

theorem checkProcess_of_zombie {p : Process} (hp : s.processes[i]? = some p)
    (hzombie : s.Zombie p.pid) : s.checkProcess i = s.complete i p := by
  simp only [State.checkProcess, hp, if_pos hzombie, State.complete]

theorem checkProcess_of_not_zombie (h : ∀ p, s.processes[i]? = some p → ¬ s.Zombie p.pid) :
    s.checkProcess i = s := by
  unfold State.checkProcess
  split
  · rfl
  · rename_i p hp
    exact if_neg (h p hp)

/-- Checking an entry leaves the state alone, or reaps the child and erases the
entry. -/
theorem checkProcess_cases (s : State) (i : ℕ) :
    s.checkProcess i = s ∨
      ∃ p, s.processes[i]? = some p ∧ s.Zombie p.pid ∧ s.checkProcess i = s.complete i p := by
  by_cases h : ∃ p, s.processes[i]? = some p ∧ s.Zombie p.pid
  · obtain ⟨p, hp, hzombie⟩ := h
    exact .inr ⟨p, hp, hzombie, checkProcess_of_zombie hp hzombie⟩
  · exact .inl (checkProcess_of_not_zombie fun p hp hzombie => h ⟨p, hp, hzombie⟩)

end Check

theorem wellFormed_start : WellFormed start where
  nodup := List.nodup_nil
  forked := fun _ h => absurd h List.not_mem_nil
  index := fun _ _ h => by contradiction
  pending := fun _ h => by contradiction

namespace WellFormed

variable {s : State}

theorem launch (h : WellFormed s) {pid : ℕ} {after : After} (hfresh : pid ∉ s.forked)
    (hpending : (s.launch pid after).pending = some pid) : WellFormed (s.launch pid after) where
  nodup := h.nodup
  forked := fun q hq => List.mem_append_left _ (h.forked q hq)
  index := fun i after heq => by
    obtain ⟨rfl, -⟩ := Pc.scan.inj heq
    exact le_refl _
  pending := fun q hq => by
    obtain rfl := Option.some.inj (hpending.symm.trans hq)
    refine ⟨List.mem_append_right _ List.mem_cons_self, ?_, fun hmem => hfresh (h.forked _ hmem)⟩
    simp [State.launch]

theorem check (h : WellFormed s) {i : ℕ} {after : After} (hpc : s.pc = .scan (i + 1) after) :
    WellFormed { s.checkProcess i with pc := .scan i after } := by
  have hi : i + 1 ≤ s.processes.length := h.index _ _ hpc
  have hafter : ∀ s' : State, s'.pc = .scan i after → s'.pending = s.pending := by
    intro s' hs'
    simp only [State.pending, hpc, hs']
  rcases checkProcess_cases s i with heq | ⟨p, hp, hzombie, heq⟩
  · rw [heq]
    refine ⟨h.nodup, h.forked, ?_, fun q hq => h.pending q ((hafter _ rfl).symm.trans hq)⟩
    intro j after' hj
    obtain ⟨rfl, -⟩ := Pc.scan.inj hj
    exact Nat.le_of_succ_le hi
  · have hsub : ((s.processes.eraseIdx i).map Process.pid).Sublist s.pids :=
      (List.eraseIdx_sublist _ _).map _
    have hmem : p.pid ∈ s.pids := List.mem_map_of_mem (List.mem_of_getElem? hp)
    rw [heq]
    refine ⟨h.nodup.sublist hsub, fun q hq => h.forked q (hsub.subset hq), ?_, ?_⟩
    · intro j after' hj
      obtain ⟨rfl, -⟩ := Pc.scan.inj hj
      have hlen : (s.processes.eraseIdx i).length = s.processes.length - 1 :=
        List.length_eraseIdx_of_lt hi
      exact hlen ▸ Nat.le_sub_one_of_lt hi
    · intro q hq
      obtain ⟨hforked, hstatus, hnot⟩ := h.pending q ((hafter _ rfl).symm.trans hq)
      refine ⟨hforked, ?_, fun hq => hnot (hsub.subset hq)⟩
      have hne : q ≠ p.pid := fun heq => hnot (heq ▸ hmem)
      simpa [State.complete, State.reap, hne] using hstatus

theorem finish (h : WellFormed s) {after : After} (hpc : s.pc = .scan 0 after) :
    WellFormed (s.finish after) := by
  cases after with
  | background p =>
      obtain ⟨hforked, -, hnot⟩ := h.pending p.pid (by rw [State.pending, hpc]; rfl)
      have hpids : (s.finish (.background p)).pids = s.pids ++ [p.pid] := List.map_append
      refine ⟨?_, ?_, fun _ _ heq => by contradiction, fun _ heq => by contradiction⟩
      · rw [hpids]
        exact List.nodup_append.mpr ⟨h.nodup, List.nodup_singleton _, fun a ha b hb heq =>
          hnot (List.mem_singleton.mp hb ▸ heq ▸ ha)⟩
      · intro q hq
        rw [hpids] at hq
        rcases List.mem_append.mp hq with hq | hq
        · exact h.forked q hq
        · exact List.mem_singleton.mp hq ▸ hforked
  | foreground pid =>
      refine ⟨h.nodup, h.forked, fun _ _ heq => by contradiction, fun q hq => h.pending q ?_⟩
      rw [State.pending, hpc]
      exact hq
  | exit =>
      unfold State.finish
      dsimp only
      split
      · exact ⟨h.nodup, h.forked, fun _ _ heq => by contradiction, fun _ heq => by contradiction⟩
      · refine ⟨h.nodup, h.forked, fun i after heq => ?_, fun _ heq => by contradiction⟩
        obtain ⟨rfl, -⟩ := Pc.scan.inj heq
        exact le_refl _

theorem move (h : WellFormed s) {s' : State} {e : Event} (hmove : Move s e s') :
    WellFormed s' := by
  cases hmove with
  | background pid name hpc hfresh => exact h.launch hfresh rfl
  | foreground pid hpc hfresh => exact h.launch hfresh rfl
  | jobs pid hpc => exact ⟨h.nodup, h.forked, h.index, h.pending⟩
  | cd pid hpc => exact h
  | exit pid hpc =>
      refine ⟨h.nodup, h.forked, fun i after heq => ?_, fun _ heq => by contradiction⟩
      obtain ⟨rfl, -⟩ := Pc.scan.inj heq
      exact Nat.zero_le _
  | check i after hpc => exact h.check hpc
  | finish after hpc => exact h.finish hpc
  | wait pid child hpc hzombie =>
      exact ⟨h.nodup, h.forked, fun _ _ heq => by contradiction, fun _ heq => by contradiction⟩
  | waitFails pid hpc hnone =>
      exact ⟨h.nodup, h.forked, fun _ _ heq => by contradiction, fun _ heq => by contradiction⟩
  | terminate child hforked hrunning =>
      refine ⟨h.nodup, h.forked, h.index, fun q hq => ?_⟩
      obtain ⟨hq, hstatus, hnot⟩ := h.pending q hq
      refine ⟨hq, ?_, hnot⟩
      by_cases heq : q = child
      · simp [heq]
      · simpa [heq] using hstatus

/-- The vector is in order in every reachable state. -/
theorem of_run {ts : List Event} (hrun : Transition.run next ts start = some s) :
    WellFormed s := by
  have hreach := Transition.Reachable.of_run ts Relation.ReflTransGen.refl hrun
  refine hreach.invariant wellFormed_start fun e a a' _ ha hnext => ?_
  exact ha.move (next_eq_some_iff.mp hnext)

end WellFormed

end Shell

end OperatingSystems
