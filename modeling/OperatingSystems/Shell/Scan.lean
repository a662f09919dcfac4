import Mathlib.Data.List.Induction
import OperatingSystems.Shell.Reaping

/-!
# The scan of the job table

`checkFinishedProcesses` for any outcome of its calls of `waitpid`, with the jobs it
asks about and the lines it prints. Entries are erased while the loop runs down the
vector; an access outside the vector has no result. The entries below the index have
not been touched yet, so they are still at their first positions.
-/

namespace OperatingSystems

namespace Shell

open OperatingSystems

/-- The vector, the arguments of `waitpid` so far and the lines printed. -/
structure Scan where
  processes : List Process
  queried : List ℕ
  output : List Line
  deriving DecidableEq, Repr

namespace Scan

section Code

variable (waitpid : ℕ → ℤ)

/-- The body of the loop of `checkFinishedProcesses`. -/
def checkProcess (i : ℕ) (s : Scan) : Option Scan :=
  match s.processes[i]? with
  | none => none
  | some p =>
      let s := { s with queried := s.queried ++ [p.pid] }
      if waitpid p.pid = p.pid then
        some { s with
          processes := s.processes.eraseIdx i
          output := s.output ++ [.completed (i + 1) p] }
      else some s

/-- The loop over the entries below `i`. -/
def checkBelow : ℕ → Scan → Option Scan
  | 0, s => some s
  | i + 1, s => (checkProcess waitpid i s).bind (checkBelow i)

def checkFinishedProcesses (processes : List Process) : Option Scan :=
  checkBelow waitpid processes.length { processes := processes, queried := [], output := [] }

end Code

section Spec

variable (waitpid : ℕ → ℤ)

/-- The jobs that `waitpid` does not report. -/
def remaining (processes : List Process) : List Process :=
  processes.filter fun p => waitpid p.pid ≠ p.pid

/-- The lines for the jobs that it reports, the last job first. -/
def completed (processes : List Process) : List Line :=
  ((processes.zipIdx.filter fun e => waitpid e.1.pid = e.1.pid).map fun e =>
    Line.completed (e.2 + 1) e.1).reverse

variable {waitpid} {p : Process} {entries rest : List Process} {queried : List ℕ}
  {output : List Line}

theorem completed_concat (entries : List Process) (p : Process) :
    completed waitpid (entries ++ [p]) =
      (if waitpid p.pid = p.pid then [.completed (entries.length + 1) p] else []) ++
        completed waitpid entries := by
  rw [completed, List.zipIdx_append, List.filter_append, List.map_append, List.reverse_append]
  congr 1
  by_cases h : waitpid p.pid = p.pid <;> simp [h]

theorem remaining_concat (entries : List Process) (p : Process) :
    remaining waitpid (entries ++ [p]) =
      remaining waitpid entries ++ if waitpid p.pid = p.pid then [] else [p] := by
  rw [remaining, List.filter_append]
  congr 1
  by_cases h : waitpid p.pid = p.pid <;> simp [h]

/-- The last of the entries that the loop has not passed. -/
theorem checkProcess_concat :
    checkProcess waitpid entries.length ⟨entries ++ p :: rest, queried, output⟩ =
      some ⟨entries ++ if waitpid p.pid = p.pid then rest else p :: rest, queried ++ [p.pid],
        output ++ if waitpid p.pid = p.pid then [.completed (entries.length + 1) p] else []⟩ := by
  have hget : (entries ++ p :: rest)[entries.length]? = some p := by simp
  have herase : (entries ++ p :: rest).eraseIdx entries.length = entries ++ rest := by
    simp [List.eraseIdx_append_of_length_le]
  rw [checkProcess, hget]
  dsimp only
  split
  · rw [herase]
  · rw [List.append_nil]

/-- The loop over the first entries, whatever stands behind them. -/
theorem checkBelow_eq (waitpid : ℕ → ℤ) (entries rest : List Process) (queried : List ℕ)
    (output : List Line) :
    checkBelow waitpid entries.length ⟨entries ++ rest, queried, output⟩ =
      some ⟨remaining waitpid entries ++ rest, queried ++ (entries.map Process.pid).reverse,
        output ++ completed waitpid entries⟩ := by
  induction entries using List.reverseRecOn generalizing rest queried output with
  | nil => simp [checkBelow, remaining, completed]
  | append_singleton entries p ih =>
      rw [List.length_append, List.length_singleton, checkBelow, List.append_assoc,
        List.singleton_append, checkProcess_concat, Option.bind_some, ih, completed_concat,
        remaining_concat]
      split <;> simp

end Spec

section Kernel

variable {waitpid : ℕ → ℤ} {i : ℕ} {s : State} {r : Scan} {before : List Line}

/-- Below the index the jobs that `waitpid` reports are the children that have
terminated. -/
def Agrees (waitpid : ℕ → ℤ) (i : ℕ) (s : State) : Prop :=
  ∀ p ∈ s.processes.take i, waitpid p.pid = p.pid ↔ s.Zombie p.pid

/-- The scan has come as far as the shell, which had printed `before`. -/
structure Follows (before : List Line) (s : State) (r : Scan) : Prop where
  processes : r.processes = s.processes
  output : s.output = before ++ r.output

/-- Reaping one child does not change what `waitpid` reports for the others. -/
theorem Agrees.complete (h : Agrees waitpid (i + 1) s) (hnodup : s.pids.Nodup) {p : Process}
    (hp : s.processes[i]? = some p) : Agrees waitpid i (s.complete i p) := by
  intro q hq
  have hlt := (List.getElem?_eq_some_iff.mp hp).1
  have hne : q.pid ≠ p.pid := fun heq =>
    pid_notMem_eraseIdx hnodup hp (heq ▸ List.mem_map_of_mem (List.mem_of_mem_take hq))
  rw [State.complete, List.eraseIdx_eq_take_drop_succ,
    List.take_left' (List.length_take_of_le hlt.le)] at hq
  rw [h q ((List.take_prefix_take_left (Nat.le_succ i)).subset hq)]
  simp [State.Zombie, State.complete, State.reap, hne]

/-- The shell erases and prints what the scan does. -/
theorem Follows.checkBelow (h : Follows before s r) (hi : i ≤ s.processes.length)
    (hnodup : s.pids.Nodup) (hagrees : Agrees waitpid i s) :
    ∃ r', Scan.checkBelow waitpid i r = some r' ∧ Follows before (s.checkBelow i) r' := by
  induction i generalizing s r with
  | zero => exact ⟨r, rfl, h⟩
  | succ i ih =>
      obtain ⟨p, hp⟩ : ∃ p, s.processes[i]? = some p := ⟨_, List.getElem?_eq_getElem hi⟩
      have hmem : p ∈ s.processes.take (i + 1) := by
        rw [List.take_add_one, hp]
        exact List.mem_append_right _ List.mem_cons_self
      rw [Scan.checkBelow, State.checkBelow, checkProcess, h.processes, hp]
      dsimp only
      by_cases hzombie : s.Zombie p.pid
      · rw [if_pos ((hagrees p hmem).mpr hzombie), Option.bind_some,
          checkProcess_of_zombie hp hzombie]
        refine ih ⟨rfl, ?_⟩ ?_ (hnodup.sublist ((List.eraseIdx_sublist _ _).map _))
          (hagrees.complete hnodup hp)
        · rw [State.complete, h.output, List.append_assoc]
        · rw [State.complete, List.length_eraseIdx_of_lt hi]
          exact Nat.le_sub_one_of_lt hi
      · have hsame : s.checkProcess i = s := checkProcess_of_not_zombie fun q hq => by
          rwa [Option.some.inj (hq.symm.trans hp)]
        rw [if_neg fun heq => hzombie ((hagrees p hmem).mp heq), Option.bind_some, hsame]
        exact ih ⟨rfl, h.output⟩ (Nat.le_of_succ_le hi) hnodup fun q hq =>
          hagrees q ((List.take_prefix_take_left (Nat.le_succ i)).subset hq)

/-- With the kernel's answers the scan is the one of the shell. -/
theorem checkFinishedProcesses_state (hnodup : s.pids.Nodup)
    (hagrees : Agrees waitpid s.processes.length s) :
    ∃ r, checkFinishedProcesses waitpid s.processes = some r ∧
      Follows s.output s.checkFinishedProcesses r := by
  have hstart : Follows s.output s ⟨s.processes, [], []⟩ := ⟨rfl, (List.append_nil _).symm⟩
  exact hstart.checkBelow (le_refl _) hnodup hagrees

end Kernel

/-- For any outcome of the calls of `waitpid` the scan ends, asks about every job
once, keeps the jobs that have not finished in their order, and prints a line for
every other job with its position in the vector before. -/
theorem checkFinishedProcesses_eq (waitpid : ℕ → ℤ) (processes : List Process)
    (hnodup : (processes.map Process.pid).Nodup) :
    ∃ s, checkFinishedProcesses waitpid processes = some s ∧
      s.processes = processes.filter (fun p => waitpid p.pid ≠ p.pid) ∧
      s.queried.Perm (processes.map Process.pid) ∧ s.queried.Nodup ∧
      s.output.reverse = (processes.zipIdx.filter fun e => waitpid e.1.pid = e.1.pid).map
        fun e => Line.completed (e.2 + 1) e.1 := by
  have h := checkBelow_eq waitpid processes [] [] []
  rw [List.append_nil, List.append_nil, List.nil_append, List.nil_append] at h
  exact ⟨_, h, rfl, List.reverse_perm _, List.nodup_reverse.mpr hnodup, List.reverse_reverse _⟩

/-- Three jobs, the first and the last of which have finished. -/
theorem checkFinishedProcesses_eq_three :
    ∃ s, checkFinishedProcesses (fun pid => if pid = 8 then 0 else pid)
        [⟨7, "a"⟩, ⟨8, "b"⟩, ⟨9, "c"⟩] = some s ∧
      s.processes = [⟨8, "b"⟩] ∧
      s.output.reverse = [.completed 1 ⟨7, "a"⟩, .completed 3 ⟨9, "c"⟩] := by
  obtain ⟨s, hs, hprocesses, -, -, houtput⟩ :=
    checkFinishedProcesses_eq (fun pid => if pid = 8 then 0 else pid)
      [⟨7, "a"⟩, ⟨8, "b"⟩, ⟨9, "c"⟩] (by decide)
  exact ⟨s, hs, hprocesses, houtput⟩

end Scan

end Shell

end OperatingSystems
