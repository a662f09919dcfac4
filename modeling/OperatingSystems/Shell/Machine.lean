import Mathlib.Logic.Function.Basic
import OperatingSystems.Transition.Reachable

/-!
# The shell and its children

`shellMode` reads one line after the other. A command that is not `cd`, `jobs`
or `exit` is run by a forked child. Before the shell goes on it looks through
the vector `processes` with `checkFinishedProcesses`, from the last entry to the
first, and calls `waitpid(pid, &status, WNOHANG)` for each. A background job is
then put into the vector; for a foreground command the shell calls `wait(0)`,
which reaps any one child that has terminated. `exit` repeats the look through
the vector until it is empty.

A child may terminate between any two of these steps, and every call of
`waitpid` is a step of its own. `fork` returns a number that no child has had
before, and `execvp` succeeds. Lines without a word change nothing and are left
out.
-/

namespace OperatingSystems

namespace Shell

/-- `Process`. -/
structure Process where
  pid : ℕ
  processName : String
  deriving DecidableEq, Repr

/-- A child in the table of the kernel. -/
inductive ChildStatus where
  | running
  | zombie
  | reaped
  deriving DecidableEq, Repr

/-- What the user enters. -/
inductive Command where
  | background (processName : String)
  | foreground
  | jobs
  | cd
  | exit
  deriving DecidableEq, Repr

/-- A line that the shell prints: the number of a job that is launched, listed
or completed, with its process. -/
inductive Line where
  | launched (number : ℕ) (process : Process)
  | listed (number : ℕ) (process : Process)
  | completed (number : ℕ) (process : Process)
  deriving DecidableEq, Repr

/-- What `shellMode` does after `checkFinishedProcesses`. -/
inductive After where
  | background (process : Process)
  | foreground (pid : ℕ)
  | exit
  deriving DecidableEq, Repr

/-- Where `shellMode` is: before `getline`, in `checkFinishedProcesses` with the
entries below `i` still to be checked, in `wait(0)`, or past its end. -/
inductive Pc where
  | prompt
  | scan (i : ℕ) (after : After)
  | waiting (pid : ℕ)
  | exited
  deriving DecidableEq, Repr

/-- The shell with the kernel's table of its children. -/
structure State where
  pc : Pc
  processes : List Process
  forked : List ℕ
  status : ℕ → ChildStatus
  output : List Line

def start : State where
  pc := .prompt
  processes := []
  forked := []
  status := fun _ => .running
  output := []

inductive Event where
  | enter (command : Command) (pid : ℕ)
  | poll
  | wait (pid : ℕ)
  | waitFails
  | terminate (pid : ℕ)
  deriving DecidableEq, Repr

namespace State

variable (s : State)

/-- The numbers of the processes in the vector. -/
def pids : List ℕ := s.processes.map Process.pid

/-- A child that `wait` and `waitpid` can reap. -/
def Zombie (pid : ℕ) : Prop := pid ∈ s.forked ∧ s.status pid = .zombie

instance (pid : ℕ) : Decidable (s.Zombie pid) := inferInstanceAs (Decidable (_ ∧ _))

def reap (pid : ℕ) : State :=
  { s with status := Function.update s.status pid .reaped }

/-- `fork`, up to the call of `checkFinishedProcesses`. -/
def launch (pid : ℕ) (after : After) : State :=
  { s with
    pc := .scan s.processes.length after
    forked := s.forked ++ [pid]
    status := Function.update s.status pid .running }

/-- `printJobs`. -/
def printJobs : State :=
  { s with output := s.output ++ s.processes.mapIdx fun i p => .listed (i + 1) p }

/-- The body of the loop of `checkFinishedProcesses`, for the entry `i`. -/
def checkProcess (i : ℕ) : State :=
  match s.processes[i]? with
  | none => s
  | some p =>
      if s.Zombie p.pid then
        { s.reap p.pid with
          processes := s.processes.eraseIdx i
          output := s.output ++ [.completed (i + 1) p] }
      else s

/-- The loop of `checkFinishedProcesses` over the entries below `i`, with no
child terminating meanwhile. -/
def checkBelow : ℕ → State → State
  | 0, s => s
  | i + 1, s => checkBelow i (s.checkProcess i)

def checkFinishedProcesses : State := checkBelow s.processes.length s

/-- The rest of the iteration after `checkFinishedProcesses`, or the test of the
loop on `exit`. -/
def finish : After → State
  | .background p =>
      { s with
        pc := .prompt
        processes := s.processes ++ [p]
        output := s.output ++ [.launched (s.processes.length + 1) p] }
  | .foreground pid => { s with pc := .waiting pid }
  | .exit =>
      if s.processes = [] then { s with pc := .exited }
      else { s with pc := .scan s.processes.length .exit }

end State

/-- The step of `shellMode` or of a child that an event stands for. -/
def next : Event → State → Option State
  | .enter command pid, s =>
      if s.pc = .prompt then
        match command with
        | .background name =>
            if pid ∈ s.forked then none else some (s.launch pid (.background ⟨pid, name⟩))
        | .foreground => if pid ∈ s.forked then none else some (s.launch pid (.foreground pid))
        | .jobs => some s.printJobs
        | .cd => some s
        | .exit => some { s with pc := .scan 0 .exit }
      else none
  | .poll, s =>
      match s.pc with
      | .scan (i + 1) after => some { s.checkProcess i with pc := .scan i after }
      | .scan 0 after => some (s.finish after)
      | _ => none
  | .wait pid, s =>
      match s.pc with
      | .waiting _ => if s.Zombie pid then some { s.reap pid with pc := .prompt } else none
      | _ => none
  | .waitFails, s =>
      match s.pc with
      | .waiting _ =>
          if ∀ pid ∈ s.forked, s.status pid = .reaped then some { s with pc := .prompt }
          else none
      | _ => none
  | .terminate pid, s =>
      if pid ∈ s.forked ∧ s.status pid = .running then
        some { s with status := Function.update s.status pid .zombie }
      else none

/-- The steps, one constructor for each kind. -/
inductive Move (s : State) : Event → State → Prop
  | background (pid : ℕ) (name : String) (hpc : s.pc = .prompt) (hfresh : pid ∉ s.forked) :
      Move s (.enter (.background name) pid) (s.launch pid (.background ⟨pid, name⟩))
  | foreground (pid : ℕ) (hpc : s.pc = .prompt) (hfresh : pid ∉ s.forked) :
      Move s (.enter .foreground pid) (s.launch pid (.foreground pid))
  | jobs (pid : ℕ) (hpc : s.pc = .prompt) : Move s (.enter .jobs pid) s.printJobs
  | cd (pid : ℕ) (hpc : s.pc = .prompt) : Move s (.enter .cd pid) s
  | exit (pid : ℕ) (hpc : s.pc = .prompt) :
      Move s (.enter .exit pid) { s with pc := .scan 0 .exit }
  | check (i : ℕ) (after : After) (hpc : s.pc = .scan (i + 1) after) :
      Move s .poll { s.checkProcess i with pc := .scan i after }
  | finish (after : After) (hpc : s.pc = .scan 0 after) : Move s .poll (s.finish after)
  | wait (pid child : ℕ) (hpc : s.pc = .waiting pid) (hzombie : s.Zombie child) :
      Move s (.wait child) { s.reap child with pc := .prompt }
  | waitFails (pid : ℕ) (hpc : s.pc = .waiting pid)
      (hnone : ∀ child ∈ s.forked, s.status child = .reaped) :
      Move s .waitFails { s with pc := .prompt }
  | terminate (child : ℕ) (hforked : child ∈ s.forked) (hrunning : s.status child = .running) :
      Move s (.terminate child)
        { s with status := Function.update s.status child .zombie }

theorem next_eq_some_iff {e : Event} {s s' : State} : next e s = some s' ↔ Move s e s' := by
  constructor
  · intro h
    cases e with
    | enter command pid =>
        simp only [next] at h
        split at h
        · rename_i hpc
          cases command with
          | background name =>
              simp only at h
              split at h
              · contradiction
              · rename_i hfresh
                exact Option.some.inj h ▸ Move.background pid name hpc hfresh
          | foreground =>
              simp only at h
              split at h
              · contradiction
              · rename_i hfresh
                exact Option.some.inj h ▸ Move.foreground pid hpc hfresh
          | jobs => exact Option.some.inj h ▸ Move.jobs pid hpc
          | cd => exact Option.some.inj h ▸ Move.cd pid hpc
          | exit => exact Option.some.inj h ▸ Move.exit pid hpc
        · contradiction
    | poll =>
        simp only [next] at h
        split at h
        · rename_i hpc
          exact Option.some.inj h ▸ Move.check _ _ hpc
        · rename_i hpc
          exact Option.some.inj h ▸ Move.finish _ hpc
        · contradiction
    | wait pid =>
        simp only [next] at h
        split at h
        · rename_i hpc
          split at h
          · rename_i hzombie
            exact Option.some.inj h ▸ Move.wait _ pid hpc hzombie
          · contradiction
        · contradiction
    | waitFails =>
        simp only [next] at h
        split at h
        · rename_i hpc
          split at h
          · rename_i hnone
            exact Option.some.inj h ▸ Move.waitFails _ hpc hnone
          · contradiction
        · contradiction
    | terminate pid =>
        simp only [next] at h
        split at h
        · rename_i hrunning
          exact Option.some.inj h ▸ Move.terminate pid hrunning.1 hrunning.2
        · contradiction
  · intro h
    cases h with
    | background pid name hpc hfresh => simp [next, hpc, hfresh]
    | foreground pid hpc hfresh => simp [next, hpc, hfresh]
    | jobs pid hpc => simp [next, hpc]
    | cd pid hpc => simp [next, hpc]
    | exit pid hpc => simp [next, hpc]
    | check i after hpc => simp [next, hpc]
    | finish after hpc => simp [next, hpc]
    | wait pid child hpc hzombie => simp [next, hpc, hzombie]
    | waitFails pid hpc hnone => simpa [next, hpc] using hnone
    | terminate child hforked hrunning => simp [next, hforked, hrunning]

end Shell

end OperatingSystems
